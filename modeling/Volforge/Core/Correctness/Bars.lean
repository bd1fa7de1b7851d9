import Volforge.Lib.Run
import Volforge.Core.Indicators

/-!
# `Core.Correctness.Bars` — bar series are causal

A series built from the whole session and one built from the rows up to a cutoff `T` need not have the same
bars, but they give the same answers about every instant up to `T`. The reason is a relation between the two
lists of bars (`Agrees`): place by place they hold the same bar, or bars of the same bucket that close after
`T`, and what only the longer one has closes after `T` and opens after everything the shorter one has seen.

## Contents
- **Buckets.** `bucketOf_eq`: the source's floor division is floor division.
- **Folding rows.** `Seen`, the invariant of `build`, and `Agrees`, its relation to a longer run.
- **Accessors.** `knownCount`, `completed`, `forming` and the indicators agree.
-/

namespace Volforge

namespace BarSeries

/-! ## Buckets -/

theorem bucketOf_eq {anchor : Timestamp} {interval : Int} (h : 0 < interval) (t : Timestamp) :
    bucketOf anchor interval t = (t - anchor) / interval := by
  unfold bucketOf
  dsimp only
  by_cases hd : 0 ≤ t - anchor
  · rw [if_pos hd, Int.tdiv_eq_ediv_of_nonneg hd]
  · rw [if_neg hd]
    have hneg : 0 ≤ -(t - anchor) + interval - 1 := by lia
    rw [Int.tdiv_eq_ediv_of_nonneg hneg]
    -- minus the ceiling of the negated quotient
    set d := t - anchor with hdef
    have hq := Int.mul_ediv_add_emod d interval
    have hr₀ := Int.emod_nonneg d (ne_of_gt h)
    have hr₁ := Int.emod_lt_of_pos d h
    have hceil : (-d + interval - 1) / interval = -(d / interval) := by
      rw [Int.ediv_eq_iff_of_pos h]
      constructor
      · nlinarith
      · nlinarith
    rw [hceil, neg_neg]

/-- A bar of bucket `b` starts no later than the times of its bucket. -/
theorem bucket_start_le {anchor : Timestamp} {interval : Int} (h : 0 < interval) (t : Timestamp) :
    anchor + bucketOf anchor interval t * interval ≤ t := by
  rw [bucketOf_eq h]
  have := Int.ediv_mul_le (t - anchor) (ne_of_gt h)
  linarith

/-- It ends after them. -/
theorem lt_bucket_end {anchor : Timestamp} {interval : Int} (h : 0 < interval) (t : Timestamp) :
    t < anchor + bucketOf anchor interval t * interval + interval := by
  rw [bucketOf_eq h]
  have := Int.lt_ediv_add_one_mul_self (t - anchor) h
  linarith

theorem bucketOf_mono {anchor : Timestamp} {interval : Int} (h : 0 < interval) {t t' : Timestamp}
    (ht : t ≤ t') : bucketOf anchor interval t ≤ bucketOf anchor interval t' := by
  rw [bucketOf_eq h, bucketOf_eq h]
  exact Int.ediv_le_ediv h (by linarith)

/-! ## Folding rows -/

/-- The row has a price. -/
def Usable (source : BarPrice) (q : Quote) : Prop := 0 < priceOf source q

/-- What `build` has made of the rows `seen` so far. -/
structure Seen (anchor : Timestamp) (interval : Int) (source : BarPrice) (seen : List Quote)
    (st : BuildState) : Prop where
  empty : st.current = none → st.done = [] ∧ ∀ q ∈ seen, ¬ Usable source q
  current : ∀ b bar, st.current = some (b, bar) → bar.openTime = anchor + b * interval ∧
    bar.closeTime = bar.openTime + interval ∧
    (∀ q ∈ seen, Usable source q → bucketOf anchor interval q.ts ≤ b) ∧
    ∃ q ∈ seen, bucketOf anchor interval q.ts = b

variable {anchor : Timestamp} {interval : Int} {source : BarPrice}

theorem addRow_unusable {st : BuildState} {q : Quote} (h : ¬ Usable source q) :
    addRow anchor interval source st q = st := by
  unfold addRow
  rw [if_pos (not_lt.mp h)]

/-- One usable row opens a bar or goes into the last one. -/
theorem addRow_cases {st : BuildState} {q : Quote} (h : Usable source q) :
    (∃ bar, addRow anchor interval source st q =
        { done := st.bars, current := some (bucketOf anchor interval q.ts, bar) } ∧
      bar = openBar anchor interval (bucketOf anchor interval q.ts) (priceOf source q) q.lastQty ∧
      ∀ b bar', st.current = some (b, bar') → bucketOf anchor interval q.ts ≠ b) ∨
    (∃ bar bar', st.current = some (bucketOf anchor interval q.ts, bar) ∧
      bar' = bar.absorb (priceOf source q) q.lastQty ∧
      addRow anchor interval source st q =
        { st with current := some (bucketOf anchor interval q.ts, bar') }) := by
  unfold addRow
  rw [if_neg (not_le.mpr h)]
  cases hc : st.current with
  | none =>
      left
      refine ⟨_, ?_, rfl, nofun⟩
      simp [BuildState.bars, hc]
  | some cur =>
      obtain ⟨b, bar⟩ := cur
      by_cases hb : bucketOf anchor interval q.ts = b
      · right
        subst hb
        exact ⟨bar, _, rfl, rfl, by simp⟩
      · left
        refine ⟨_, ?_, rfl, ?_⟩
        · simp [BuildState.bars, hc, hb]
        · intro b' bar' heq
          cases heq
          exact hb

theorem Seen.addRow (hint : 0 < interval) {seen : List Quote} {st : BuildState} {q : Quote}
    (h : Seen anchor interval source seen st) (hlast : ∀ r ∈ seen, r.ts ≤ q.ts) :
    Seen anchor interval source (seen ++ [q]) (addRow anchor interval source st q) := by
  by_cases hu : Usable source q
  · have hall : ∀ r ∈ seen ++ [q], bucketOf anchor interval r.ts ≤ bucketOf anchor interval q.ts := by
      intro r hr
      obtain hr | hr := List.mem_append.mp hr
      · exact bucketOf_mono hint (hlast r hr)
      · rw [List.mem_singleton.mp hr]
    have hself : q ∈ seen ++ [q] := List.mem_append_right _ (List.mem_singleton_self q)
    obtain ⟨bar, heq, hbar, _⟩ | ⟨bar, _, hcur, rfl, heq⟩ :=
      @addRow_cases anchor interval source st q hu
    · rw [heq]
      refine ⟨fun hnone => (Option.some_ne_none _ hnone).elim, fun b bar' hb => ?_⟩
      cases hb
      rw [hbar]
      exact ⟨rfl, rfl, fun r hr _ => hall r hr, q, hself, rfl⟩
    · rw [heq]
      refine ⟨fun hnone => (Option.some_ne_none _ hnone).elim, fun b bar' hb => ?_⟩
      cases hb
      obtain ⟨hopen, hclose, _⟩ := h.current _ bar hcur
      exact ⟨hopen, hclose, fun r hr _ => hall r hr, q, hself, rfl⟩
  · rw [addRow_unusable hu]
    refine ⟨fun hnone => ⟨(h.empty hnone).1, fun r hr => ?_⟩, fun b bar hb => ?_⟩
    · obtain hr | hr := List.mem_append.mp hr
      · exact (h.empty hnone).2 r hr
      · rw [List.mem_singleton.mp hr]
        exact hu
    · obtain ⟨hopen, hclose, hmax, r₀, hr₀, hb₀⟩ := h.current b bar hb
      refine ⟨hopen, hclose, fun r hr hru => ?_, r₀, List.mem_append_left _ hr₀, hb₀⟩
      obtain hr | hr := List.mem_append.mp hr
      · exact hmax r hr hru
      · rw [List.mem_singleton.mp hr] at hru
        exact absurd hru hu

/-- The bars of one place in a series cut off at `T`, which has seen the rows `seen`, and in a longer one. -/
def Place (T : Timestamp) (source : BarPrice) (seen : List Quote) : Option Bar → Option Bar → Prop
  | some a, some b => a = b ∨ (b.openTime = a.openTime ∧ b.closeTime = a.closeTime ∧ T < a.closeTime)
  | none, some b => T < b.closeTime ∧ ∀ q ∈ seen, Usable source q → q.ts < b.openTime
  | some _, none => False
  | none, none => True

/-- The bars of the two series agree, place by place. -/
def Agrees (T : Timestamp) (source : BarPrice) (seen : List Quote) (short long : List Bar) : Prop :=
  ∀ k : Nat, Place T source seen (short[k]?) (long[k]?)

theorem Agrees.refl (T : Timestamp) (source : BarPrice) (seen : List Quote) (bars : List Bar) :
    Agrees T source seen bars bars := by
  intro k
  cases bars[k]? with
  | none => trivial
  | some b => exact .inl rfl

/-- A bar that closes after `T` may be replaced by one of the same bucket. -/
theorem Agrees.absorb {T : Timestamp} {seen : List Quote} {short front : List Bar} {bar bar' : Bar}
    (h : Agrees T source seen short (front ++ [bar])) (hopen : bar'.openTime = bar.openTime)
    (hclose : bar'.closeTime = bar.closeTime) (hlate : T < bar.closeTime) :
    Agrees T source seen short (front ++ [bar']) := by
  intro k
  have hk := h k
  -- only the last bar of the longer list has changed
  rcases Nat.lt_trichotomy k front.length with hlt | rfl | hgt
  · rw [List.getElem?_append_left hlt] at hk ⊢
    exact hk
  · simp only [List.getElem?_append_right (Nat.le_refl _), Nat.sub_self, List.getElem?_cons_zero] at hk ⊢
    cases hs : short[front.length]? with
    | none =>
        rw [hs] at hk
        refine ⟨hclose ▸ hlate, fun q hq hu => ?_⟩
        rw [hopen]
        exact hk.2 q hq hu
    | some a =>
        rw [hs] at hk
        obtain rfl | ⟨ho, hc, hl⟩ := hk
        · exact .inr ⟨hopen, hclose, hlate⟩
        · exact .inr ⟨hopen.trans ho, hclose.trans hc, hl⟩
  · have hlen : front.length + 1 ≤ k := hgt
    have hnone : ∀ x : Bar, (front ++ [x])[k]? = none :=
      fun x => List.getElem?_eq_none (by simpa using hlen)
    rw [hnone] at hk ⊢
    exact hk

/-- A bar that closes after `T` and opens after all the rows seen may be added. -/
theorem Agrees.concat {T : Timestamp} {seen : List Quote} {short long : List Bar} {bar : Bar}
    (h : Agrees T source seen short long) (hlate : T < bar.closeTime)
    (hopen : ∀ q ∈ seen, Usable source q → q.ts < bar.openTime) :
    Agrees T source seen short (long ++ [bar]) := by
  intro k
  have hk := h k
  rcases Nat.lt_trichotomy k long.length with hlt | rfl | hgt
  · rw [List.getElem?_append_left hlt]
    exact hk
  · rw [List.getElem?_eq_none (Nat.le_refl _)] at hk
    simp only [List.getElem?_append_right (Nat.le_refl _), Nat.sub_self, List.getElem?_cons_zero]
    cases hs : short[long.length]? with
    | none => exact ⟨hlate, hopen⟩
    | some a =>
        rw [hs] at hk
        exact hk.elim
  · have hnone : (long ++ [bar])[k]? = none := List.getElem?_eq_none (by simpa using hgt)
    rw [List.getElem?_eq_none (Nat.le_of_lt hgt)] at hk
    rw [hnone]
    exact hk

/-- **A row after the cutoff** changes nothing that has closed by it. -/
theorem Agrees.addRow (hint : 0 < interval) {T : Timestamp} {seen all : List Quote} {short : List Bar}
    {st : BuildState} {q : Quote} (h : Agrees T source seen short st.bars)
    (hseen : Seen anchor interval source all st) (hsub : ∀ r ∈ seen, r ∈ all) (hq : T < q.ts)
    (hlast : ∀ r ∈ all, r.ts ≤ q.ts) :
    Agrees T source seen short (BarSeries.addRow anchor interval source st q).bars := by
  by_cases hu : Usable source q
  · obtain ⟨bar, heq, hbar, hne⟩ | ⟨bar, _, hcur, rfl, heq⟩ :=
      @addRow_cases anchor interval source st q hu
    · rw [heq]
      have hlate : T < bar.closeTime := by
        rw [hbar]
        exact lt_trans hq (lt_bucket_end hint q.ts)
      refine h.concat hlate (fun r hr hru => ?_)
      -- a row seen before lies in an earlier bucket, which ends where the new one starts at the latest
      have hbucket : bucketOf anchor interval r.ts < bucketOf anchor interval q.ts := by
        cases hc : st.current with
        | none => exact absurd hru ((hseen.empty hc).2 r (hsub r hr))
        | some cur =>
            obtain ⟨b, bar'⟩ := cur
            obtain ⟨_, _, hmax, r₀, hr₀, hb₀⟩ := hseen.current b bar' hc
            have hb : b ≤ bucketOf anchor interval q.ts := hb₀ ▸ bucketOf_mono hint (hlast r₀ hr₀)
            exact lt_of_le_of_lt (hmax r (hsub r hr) hru) (lt_of_le_of_ne hb (Ne.symm (hne b bar' hc)))
      rw [hbar]
      have hend : r.ts < anchor + bucketOf anchor interval r.ts * interval + interval :=
        lt_bucket_end hint r.ts
      show r.ts < anchor + bucketOf anchor interval q.ts * interval
      nlinarith
    · rw [heq]
      obtain ⟨hopen, hclose, _⟩ := hseen.current _ bar hcur
      have hlate : T < bar.closeTime := by
        rw [hclose, hopen]
        exact lt_trans hq (lt_bucket_end hint q.ts)
      simp only [BuildState.bars, hcur] at h ⊢
      exact h.absorb rfl rfl hlate
  · rw [addRow_unusable hu]
    exact h

/-- `build` after the rows `rows`, when it had seen `seen`. -/
theorem Seen.foldl (hint : 0 < interval) (rows : List Quote) {seen : List Quote} {st : BuildState}
    (h : Seen anchor interval source seen st) (hasc : (seen ++ rows).Pairwise (fun a b => a.ts ≤ b.ts)) :
    Seen anchor interval source (seen ++ rows)
      (rows.foldl (BarSeries.addRow anchor interval source) st) := by
  induction rows generalizing seen st with
  | nil =>
      rw [List.append_nil]
      exact h
  | cons q rows ih =>
      have hlast : ∀ r ∈ seen, r.ts ≤ q.ts := fun r hr =>
        (List.pairwise_append.mp hasc).2.2 r hr q (List.mem_cons_self ..)
      have hsplit : seen ++ q :: rows = (seen ++ [q]) ++ rows := by simp
      rw [hsplit] at hasc ⊢
      exact ih (h.addRow hint hlast) hasc

/-- **Rows after the cutoff** change nothing that has closed by it. -/
theorem Agrees.foldl (hint : 0 < interval) {T : Timestamp} {seen : List Quote} {short : List Bar}
    (rows : List Quote) {all : List Quote} {st : BuildState} (h : Agrees T source seen short st.bars)
    (hseen : Seen anchor interval source all st) (hsub : ∀ r ∈ seen, r ∈ all)
    (hlate : ∀ r ∈ rows, T < r.ts) (hasc : (all ++ rows).Pairwise (fun a b => a.ts ≤ b.ts)) :
    Agrees T source seen short (rows.foldl (BarSeries.addRow anchor interval source) st).bars := by
  induction rows generalizing all st with
  | nil => exact h
  | cons q rows ih =>
      have hlast : ∀ r ∈ all, r.ts ≤ q.ts := fun r hr =>
        (List.pairwise_append.mp hasc).2.2 r hr q (List.mem_cons_self ..)
      have hsplit : all ++ q :: rows = (all ++ [q]) ++ rows := by simp
      rw [hsplit] at hasc
      exact ih (h.addRow hint hseen hsub (hlate q (List.mem_cons_self ..)) hlast) (hseen.addRow hint hlast)
        (fun r hr => List.mem_append_left _ (hsub r hr))
        (fun r hr => hlate r (List.mem_cons_of_mem _ hr)) hasc

/-! ## Accessors -/

/-- The bars known by an instant up to the cutoff are the same ones. -/
theorem Agrees.known {T now : Timestamp} {seen : List Quote} {short long : List Bar}
    (h : Agrees T source seen short long) (hnow : now ≤ T) :
    short.takeWhile (fun b => b.closeTime ≤ now) = long.takeWhile (fun b => b.closeTime ≤ now) := by
  induction short generalizing long with
  | nil =>
      cases long with
      | nil => rfl
      | cons b long =>
          have hlate : T < b.closeTime := (h 0).1
          have hb : ¬ b.closeTime ≤ now := by lia
          simp [hb]
  | cons a short ih =>
      cases long with
      | nil => exact (h 0).elim
      | cons b long =>
          have htail : Agrees T source seen short long := fun k => h (k + 1)
          obtain heq | ⟨_, hclose, hlate⟩ := h 0
          · rw [heq, List.takeWhile_cons, List.takeWhile_cons, ih htail]
          · have ha : ¬ a.closeTime ≤ now := by lia
            have hb : ¬ b.closeTime ≤ now := by lia
            simp [ha, hb]

/-- A bar series of the rows printed by the cutoff, and one of the whole session. -/
structure Clipped (T : Timestamp) (short long : BarSeries) : Prop where
  ascending : long.cols.Ascending
  cols : short.cols = long.cols.first (long.cols.upperBound T)
  validUntil : short.validUntil = long.validUntil
  source : short.source = long.source
  bars : Agrees T long.source short.cols.rows short.bars long.bars

variable {T now : Timestamp} {short long : BarSeries}

theorem Clipped.knownCount (h : Clipped T short long) (hnow : now ≤ T) :
    short.knownCount now = long.knownCount now := by
  unfold BarSeries.knownCount
  rw [h.validUntil, h.bars.known hnow]

/-- A position counted by `knownCount` holds the same bar in both. -/
theorem Clipped.bar_eq (h : Clipped T short long) (hnow : now ≤ T) {k i : Nat}
    (hk : long.knownCount now = .ok k) (hi : i < k) : short.bars[i]? = long.bars[i]? := by
  unfold BarSeries.knownCount at hk
  split at hk
  · cases hk
  · cases hk
    have hclip : ∀ l : List Bar, i < (l.takeWhile (fun b => b.closeTime ≤ now)).length →
        (l.takeWhile (fun b => b.closeTime ≤ now))[i]? = l[i]? := by
      intro l hl
      rw [List.prefix_iff_eq_take.mp (List.takeWhile_prefix (l := l) (fun b => b.closeTime ≤ now)),
        List.getElem?_take_of_lt hl]
    have hi' : i < (short.bars.takeWhile (fun b => b.closeTime ≤ now)).length := by
      rw [h.bars.known hnow]
      exact hi
    rw [← hclip _ hi', ← hclip _ hi, h.bars.known hnow]

theorem Clipped.completed (h : Clipped T short long) (hnow : now ≤ T) (back : Int) :
    short.completed now back = long.completed now back := by
  unfold BarSeries.completed
  by_cases hb : back < 0
  · rw [if_pos hb, if_pos hb]
  · rw [if_neg hb, if_neg hb, h.knownCount hnow]
    cases hk : long.knownCount now with
    | error e => rfl
    | ok k =>
        simp only [Run.ok_bind]
        by_cases h₀ : k = 0
        · rw [if_pos h₀, if_pos h₀]
        · have hlt : k - 1 - back.toNat < k := by omega
          rw [h.bar_eq hnow hk hlt]

/-- The rows `forming` reads are the same in both. -/
theorem Clipped.rows_take (h : Clipped T short long) {upto : Nat}
    (hupto : long.cols.indexAtOrBefore now = some upto) (hnow : now ≤ T) :
    short.cols.rows.take (upto + 1) = long.cols.rows.take (upto + 1) := by
  have hle : upto + 1 ≤ long.cols.upperBound T := by
    rw [← QuoteColumns.indexAtOrBefore_eq_some.mp hupto]
    exact long.cols.upperBound_mono hnow
  rw [h.cols, QuoteColumns.rows_first _ (long.cols.upperBound_le_size T), List.take_take, Nat.min_eq_left hle]

/-- Rows that lie before the bar or have no price leave it unstarted. -/
theorem foldl_absorbRow_none {stored : Bar} {rows : List Quote}
    (h : ∀ q ∈ rows, Usable source q → q.ts < stored.openTime) :
    rows.foldl (absorbRow source stored) none = none := by
  induction rows with
  | nil => rfl
  | cons q rows ih =>
      have hq : absorbRow source stored none q = none := by
        unfold absorbRow
        by_cases hu : Usable source q
        · rw [if_pos (h q (List.mem_cons_self ..) hu)]
        · simp [not_lt.mp hu]
      rw [List.foldl_cons, hq]
      exact ih (fun r hr => h r (List.mem_cons_of_mem _ hr))

theorem absorbRow_congr {a b : Bar} (hopen : a.openTime = b.openTime) (hclose : a.closeTime = b.closeTime) :
    absorbRow source a = absorbRow source b := by
  funext bar q
  unfold absorbRow
  rw [hopen, hclose]

theorem Clipped.forming (h : Clipped T short long) (hnow : now ≤ T) :
    short.forming now = long.forming now := by
  have hidx : short.cols.indexAtOrBefore now = long.cols.indexAtOrBefore now := by
    rw [h.cols]
    exact long.cols.indexAtOrBefore_first hnow
  unfold BarSeries.forming
  rw [h.knownCount hnow, hidx, h.source]
  cases long.knownCount now with
  | error e => rw [Run.error_bind, Run.error_bind]
  | ok k =>
      simp only [Run.ok_bind]
      have hplace := h.bars k
      cases hs : short.bars[k]? with
      | none =>
          cases hl : long.bars[k]? with
          | none => rfl
          | some b =>
              -- only the whole session has this bar: none of the rows printed by now goes into it
              rw [hs, hl] at hplace
              dsimp only
              by_cases hstart : now < b.openTime
              · rw [if_pos hstart]
              · rw [if_neg hstart]
                cases hi : long.cols.indexAtOrBefore now with
                | none => rfl
                | some upto =>
                    have hnone : (long.cols.rows.take (upto + 1)).foldl (absorbRow long.source b) none = none := by
                      rw [← h.rows_take hi hnow]
                      exact foldl_absorbRow_none (fun q hq => hplace.2 q (List.mem_of_mem_take hq))
                    simp only [hnone]
      | some a =>
          cases hl : long.bars[k]? with
          | none =>
              rw [hs, hl] at hplace
              exact hplace.elim
          | some b =>
              rw [hs, hl] at hplace
              have hbucket : a.openTime = b.openTime ∧ a.closeTime = b.closeTime := by
                obtain rfl | ⟨hopen, hclose, _⟩ := hplace
                · exact ⟨rfl, rfl⟩
                · exact ⟨hopen.symm, hclose.symm⟩
              simp only [hbucket.1, absorbRow_congr hbucket.1 hbucket.2]
              cases hi : long.cols.indexAtOrBefore now with
              | none => rfl
              | some upto => simp only [h.rows_take hi hnow]

/-- **Clipping.** The series of the rows printed by `T` is the clipped one of the whole session. -/
theorem clipped_build {cols : QuoteColumns} (hasc : cols.Ascending) (T : Timestamp) (interval : Int)
    (anchor : Timestamp) (source : BarPrice) (validUntil : Timestamp) :
    Run.Alike (fun long short => Clipped T short long)
      (build cols interval anchor source validUntil)
      (build (cols.first (cols.upperBound T)) interval anchor source validUntil) := by
  unfold BarSeries.build
  by_cases hint : interval ≤ 0
  · rw [if_pos hint, if_pos hint]
    exact .error _
  rw [if_neg hint, if_neg hint]
  have hint : 0 < interval := not_le.mp hint
  refine .ok ⟨hasc, rfl, rfl, rfl, ?_⟩
  have hrows := QuoteColumns.rows_ascending hasc
  have hseen : Seen anchor interval source [] {} := ⟨fun _ => ⟨rfl, by simp⟩, nofun⟩
  -- the whole session is the clipped rows and then the later ones
  have hsplit := List.take_append_drop (cols.upperBound T) cols.rows
  rw [← hsplit] at hrows
  have hfront : Seen anchor interval source (cols.rows.take (cols.upperBound T))
      ((cols.rows.take (cols.upperBound T)).foldl (BarSeries.addRow anchor interval source) {}) :=
    hseen.foldl hint _ (List.pairwise_append.mp hrows).1
  show Agrees T source (cols.first (cols.upperBound T)).rows
    ((cols.first (cols.upperBound T)).rows.foldl (BarSeries.addRow anchor interval source) {}).bars
    (cols.rows.foldl (BarSeries.addRow anchor interval source) {}).bars
  rw [QuoteColumns.rows_first _ (cols.upperBound_le_size T)]
  nth_rewrite 3 [← hsplit]
  rw [List.foldl_append]
  exact (Agrees.refl T source _ _).foldl hint _ hfront (fun _ hr => hr)
    (fun q hq => QuoteColumns.lt_of_mem_drop hasc hq) hrows

end BarSeries

/-! ## Indicators -/

section Indicators

variable {F : Type} [Double F]

/-- The sum of the last closes sees no later close than the one it adds. -/
theorem take_smaLoop (period : Nat) (closes closes' : List F) (i m : Nat) (running : F) (rest : List F)
    (h : ∀ j < i + m, closes.getD j Double.zero = closes'.getD j Double.zero) :
    (smaLoop period closes i running rest).take m = smaLoop period closes' i running (rest.take m) := by
  induction rest generalizing i m running with
  | nil => simp [smaLoop]
  | cons c rest ih =>
      cases m with
      | zero => simp [smaLoop]
      | succ m =>
          have hold : closes.getD (i - period) Double.zero = closes'.getD (i - period) Double.zero :=
            h _ (by omega)
          simp only [smaLoop, List.take_succ_cons, hold]
          congr 1
          exact ih (i + 1) m _ (fun j hj => h j (by omega))

theorem take_smaValues (period : Nat) (closes : List F) (n : Nat) :
    (smaValues period closes).take n = smaValues period (closes.take n) := by
  unfold smaValues
  apply take_smaLoop
  intro j hj
  have hj : j < n := by omega
  simp [List.getD_eq_getElem?_getD, hj]

theorem take_windowValues (period : Nat) (stat : List F → F) (closes : List F) (n : Nat) :
    (windowValues period stat closes).take n = windowValues period stat (closes.take n) := by
  unfold windowValues
  rw [← List.map_take, List.take_range, List.length_take]
  refine List.map_congr_left (fun i hi => ?_)
  have hi : i < min n closes.length := List.mem_range.mp hi
  rw [List.take_take, Nat.min_eq_left (by omega)]

/-- A turn of the loop of `stdev` sees no close later than its own bar's. -/
theorem take_stdevLoop (period : Nat) (closes closes' : List F) (i m : Nat) (rest : List F)
    (h : ∀ j < i + m, closes.take (j + 1) = closes'.take (j + 1)) :
    (stdevLoop period closes i rest).take m = stdevLoop period closes' i (rest.take m) := by
  induction rest generalizing i m with
  | nil => simp [stdevLoop]
  | cons c rest ih =>
      cases m with
      | zero => simp [stdevLoop]
      | succ m =>
          simp only [stdevLoop, List.take_succ_cons]
          by_cases hi : i + 1 < period
          · rw [if_pos hi, if_pos hi, ← List.map_take, List.take_succ_cons]
          · rw [if_neg hi, if_neg hi, h i (by omega), List.take_succ_cons]
            congr 1
            exact ih (i + 1) m (fun j hj => h j (by omega))

theorem take_stdevValues (period : Nat) (closes : List F) (n : Nat) :
    (stdevValues period closes).take n = stdevValues period (closes.take n) := by
  unfold stdevValues
  apply take_stdevLoop
  intro j hj
  rw [List.take_take, Nat.min_eq_left (by omega)]

/-- **The values of an indicator are causal**: those of the first bars depend on nothing later. -/
theorem IndicatorKind.take_values (kind : IndicatorKind F) (closes : List F) (n : Nat) :
    (kind.values closes).take n = kind.values (closes.take n) := by
  cases kind with
  | sma p => simp only [values, take_smaValues]
  | stdev p => simp only [values, take_stdevValues]
  | bollingerMiddle p => simp only [values, take_windowValues]
  | bollingerUpper p k => simp only [values, take_windowValues]
  | bollingerLower p k => simp only [values, take_windowValues]

variable {T now : Timestamp} {short long : BarSeries}

open BarSeries in
/-- An indicator of the clipped series answers alike. -/
theorem BarSeries.Clipped.valueAt (h : Clipped T short long) (hnow : now ≤ T) (kind : IndicatorKind F)
    (back : Int) :
    (BarIndicator.mk short (kind.values (closesOf short))).valueAt now back =
      (BarIndicator.mk long (kind.values (closesOf long))).valueAt now back := by
  unfold BarIndicator.valueAt
  by_cases hb : back < 0
  · rw [if_pos hb, if_pos hb]
  · rw [if_neg hb, if_neg hb]
    simp only [h.knownCount hnow]
    cases hk : long.knownCount now with
    | error e => rw [Run.error_bind, Run.error_bind]
    | ok k =>
        simp only [Run.ok_bind]
        by_cases h₀ : k = 0
        · rw [if_pos h₀, if_pos h₀]
        · have hlt : k - 1 - back.toNat < k := by omega
          -- the two series have the same first `k` bars, so the same first `k` closes
          have hbars : short.bars.take k = long.bars.take k := by
            apply List.ext_getElem?
            intro i
            by_cases hi : i < k
            · rw [List.getElem?_take_of_lt hi, List.getElem?_take_of_lt hi, h.bar_eq hnow hk hi]
            · rw [List.getElem?_take_eq_none (not_lt.mp hi), List.getElem?_take_eq_none (not_lt.mp hi)]
          have hcloses : ((closesOf short : List F)).take k = (closesOf long).take k := by
            unfold closesOf
            rw [← List.map_take, ← List.map_take, hbars]
          have hvalue : (kind.values (closesOf short))[k - 1 - back.toNat]? =
              (kind.values (closesOf long))[k - 1 - back.toNat]? := by
            rw [← List.getElem?_take_of_lt hlt, kind.take_values, hcloses, ← kind.take_values,
              List.getElem?_take_of_lt hlt]
          rw [hvalue]

end Indicators

end Volforge
