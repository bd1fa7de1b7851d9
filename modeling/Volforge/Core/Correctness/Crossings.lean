import Volforge.Core.EventLoop
import Volforge.Core.Correctness.Fills

/-!
# `Core.Correctness.Crossings` — when an instant crossing holds

A cross is a pair of adjacent observations on two sides of the level, each against the level known when it
printed. The condition of the source looks at the last pair only, whenever it is asked, and takes the level of
now for the later one.
-/

namespace Volforge

variable {F : Type} [Double F]

/-! ## Crosses -/

/-- The level known at an instant: what the indicator answers there, if it answers. -/
def Ctx.levelAt (c : Ctx F) (level : IndicatorRef F) (t : Timestamp) : Option F :=
  match c.indicatorAt level t 0 with
  | .ok v => v
  | .error _ => none

/-- `prev` lies at most at its level and `cur` above its own; or at least at it, and below. -/
def Straddles (above : Bool) (prev lvlPrev cur lvl : F) : Prop :=
  match above with
  | true => Double.le prev lvlPrev = true ∧ Double.lt lvl cur = true
  | false => Double.le lvlPrev prev = true ∧ Double.lt cur lvl = true

/-- The observation before `j` lies on one side of its level, and `j` beyond the level known at `t`. -/
def PairCrosses (cols : QuoteColumns) (L : Timestamp → Option F) (above : Bool) (j : Nat) (t : Timestamp) :
    Prop :=
  ∃ lvlPrev ∈ L (cols.time (j - 1)), ∃ lvl ∈ L t,
    Straddles above (Double.ofMinor (cols.atRow (j - 1)).last) lvlPrev (Double.ofMinor (cols.atRow j).last) lvl

/-- Two adjacent observations cross at `now`, the later one printed then. -/
def CrossedAt (cols : QuoteColumns) (L : Timestamp → Option F) (above : Bool) (now : Timestamp) : Prop :=
  ∃ j, 1 ≤ j ∧ j < cols.size ∧ cols.time j = now ∧ PairCrosses cols L above j (cols.time j)

/-- The last pair tells the crosses of this instant: where the instrument prints, the last pair crosses when any
    pair of the same instant does; where it does not, the last pair does not straddle the level known now. -/
structure LastPairTells (cols : QuoteColumns) (L : Timestamp → Option F) (above : Bool) (now : Timestamp) :
    Prop where
  printing : ∀ j i, 1 ≤ j → j < cols.size → cols.time j = now → cols.indexAtOrBefore now = some i →
    PairCrosses cols L above j now → PairCrosses cols L above i now
  quiet : ∀ i, cols.indexAtOrBefore now = some i → cols.time i < now → 1 ≤ i →
    ¬ PairCrosses cols L above i now

/-! ## The condition -/

section Instant

variable {s : SessionData} {c : Ctx F} {now : Timestamp} {inst : InstrumentId} {level : IndicatorRef F}
  {above : Bool}

omit [Double F] in
theorem Ctx.levelAt_eq_some {t : Timestamp} {l : F} :
    l ∈ c.levelAt level t ↔ c.indicatorAt level t 0 = .ok (some l) := by
  unfold levelAt
  cases c.indicatorAt level t 0 with
  | error e => simp
  | ok v => simp

theorem Ctx.crosses_eq_true {prev lvlPrev cur lvl : F} :
    Ctx.crosses above prev lvlPrev cur lvl = true ↔ Straddles above prev lvlPrev cur lvl := by
  cases above with
  | true => simp [Ctx.crosses, Straddles]
  | false => simp [Ctx.crosses, Straddles]

/-- The observation before the last one. -/
theorem QuoteColumns.quoteAt_of_index {cols : QuoteColumns} {i back : Nat}
    (h : cols.indexAtOrBefore now = some i) :
    cols.quoteAt now back = if i < back then none else some (cols.atRow (i - back)) := by
  have hne : cols.isEmpty = false := isEmpty_eq_false (indexAtOrBefore_lt_size h)
  unfold quoteAt
  rw [hne, h]
  rfl

theorem QuoteColumns.quoteAt_of_none {cols : QuoteColumns} {back : Nat}
    (h : cols.indexAtOrBefore now = none) : cols.quoteAt now back = none := by
  unfold quoteAt
  rw [h]
  split_ifs <;> rfl

/-- **What the condition asks**: whether the last pair straddles, the later one against the level of now. -/
theorem instantCross_eq_true (hmarket : c.market = s.view now) :
    (Ctx.instantCross inst level above).eval c = .ok true ↔
      ∃ i, (s.quotes inst).indexAtOrBefore now = some i ∧ 1 ≤ i ∧
        PairCrosses (s.quotes inst) (c.levelAt level) above i now := by
  have hquote : ∀ back, c.market.quote inst back = (s.quotes inst).quoteAt now back := by
    intro back
    rw [hmarket]
    rfl
  have hnow : c.now = now := by
    show c.market.now = now
    rw [hmarket]
    rfl
  unfold Ctx.instantCross Cond.when_ Cond.eval
  dsimp only
  rw [hquote 0, hquote 1, hnow]
  cases hidx : (s.quotes inst).indexAtOrBefore now with
  | none =>
      rw [QuoteColumns.quoteAt_of_none hidx]
      simp
  | some i =>
      rw [QuoteColumns.quoteAt_of_index hidx, QuoteColumns.quoteAt_of_index hidx]
      rcases Nat.eq_zero_or_pos i with rfl | hi
      · -- one row alone makes no pair
        simp
      · have hone : ¬ i < 1 := by omega
        rw [if_neg (Nat.not_lt_zero i), if_neg hone]
        simp only [Nat.sub_zero, Option.some.injEq, exists_eq_left']
        rw [and_iff_right (show 1 ≤ i from hi)]
        unfold PairCrosses
        simp only [Ctx.levelAt_eq_some, ← Ctx.crosses_eq_true]
        have hts : ((s.quotes inst).atRow (i - 1)).ts = (s.quotes inst).time (i - 1) := rfl
        rw [hts]
        cases c.indicatorAt level now 0 with
        | error e => simp
        | ok lvlNow =>
            cases c.indicatorAt level ((s.quotes inst).time (i - 1)) 0 with
            | error e => simp
            | ok lvlPrev =>
                cases lvlNow with
                | none => simp
                | some l =>
                    cases lvlPrev with
                    | none => simp
                    | some lp => simp

/-- The last pair tells the crosses of an instant exactly when the condition is exact there. -/
theorem instantCross_exact_iff (hasc : (s.quotes inst).Ascending) (hmarket : c.market = s.view now) :
    ((Ctx.instantCross inst level above).eval c = .ok true ↔
        CrossedAt (s.quotes inst) (c.levelAt level) above now) ↔
      LastPairTells (s.quotes inst) (c.levelAt level) above now := by
  rw [instantCross_eq_true hmarket]
  -- a row that printed at `now` is no later than the last one, which then printed at `now` too
  have hlast : ∀ {i j}, (s.quotes inst).indexAtOrBefore now = some i → j < (s.quotes inst).size →
      (s.quotes inst).time j = now → j ≤ i ∧ (s.quotes inst).time i = now := by
    intro i j hidx hj htime
    have hcount : j < i + 1 := by
      rw [← QuoteColumns.indexAtOrBefore_eq_some.mp hidx]
      exact (QuoteColumns.lt_upperBound_iff hasc hj).mpr (le_of_eq htime)
    have hle := QuoteColumns.time_le_time_indexAtOrBefore hasc hidx hj (le_of_eq htime)
    rw [htime] at hle
    exact ⟨Nat.lt_succ_iff.mp hcount, le_antisymm (QuoteColumns.indexAtOrBefore_time_le hidx) hle⟩
  constructor
  · intro hexact
    constructor
    · intro j i hj hsize htime hidx hcross
      obtain ⟨i', hidx', _, hcross'⟩ := hexact.mpr ⟨j, hj, hsize, htime, by rw [htime]; exact hcross⟩
      rw [hidx, Option.some.injEq] at hidx'
      rw [hidx']
      exact hcross'
    · intro i hidx hquiet hi hcross
      obtain ⟨j, _, hsize, htime, _⟩ := hexact.mp ⟨i, hidx, hi, hcross⟩
      exact absurd (hlast hidx hsize htime).2 (ne_of_lt hquiet)
  · intro htells
    constructor
    · rintro ⟨i, hidx, hi, hcross⟩
      rcases lt_or_eq_of_le (QuoteColumns.indexAtOrBefore_time_le hidx) with hquiet | htime
      · exact absurd hcross (htells.quiet i hidx hquiet hi)
      · exact ⟨i, hi, QuoteColumns.indexAtOrBefore_lt_size hidx, htime, by rw [htime]; exact hcross⟩
    · rintro ⟨j, hj, hsize, htime, hcross⟩
      rw [htime] at hcross
      cases hidx : (s.quotes inst).indexAtOrBefore now with
      | none =>
          have hpast := (QuoteColumns.lt_upperBound_iff hasc hsize).mpr (le_of_eq htime)
          rw [QuoteColumns.indexAtOrBefore_eq_none.mp hidx] at hpast
          exact absurd hpast (Nat.not_lt_zero j)
      | some i =>
          exact ⟨i, rfl, le_trans hj (hlast hidx hsize htime).1, htells.printing j i hj hsize htime hidx hcross⟩

end Instant

/-! ## `cross_above` and `cross_below` -/

/-- The two crossings, as they are built in the context `built`. -/
def Ctx.crossing (built : Ctx F) (above : Bool) (level : IndicatorRef F) : Except Error (Cond F) :=
  if above then built.crossAbove level .Instant else built.crossBelow level .Instant

theorem Ctx.crossing_eq_ok {built : Ctx F} {above : Bool} {level : IndicatorRef F} {cond : Cond F}
    (h : built.crossing above level = .ok cond) : cond = Ctx.instantCross built.spot level above := by
  have hcross : ∀ name, built.cross level .Instant above name = .ok cond →
      cond = Ctx.instantCross built.spot level above := by
    intro name hname
    unfold Ctx.cross at hname
    cases hs : built.series[level.series]? with
    | none => rw [hs] at hname; cases hname
    | some view =>
        rw [hs] at hname
        cases hname
        rfl
  unfold Ctx.crossing at h
  cases above with
  | true => exact hcross _ h
  | false => exact hcross _ h

/-- **An instant crossing is exact precisely where the last pair tells the crosses of the step.** For every session,
    every level and every instant, the condition holds at that instant just in case some pair of adjacent prints of
    spot crosses then, each against the level known when it printed, if and only if this is so of the last pair
    whenever it is of any, and no quiet pair straddles the level known now. -/
theorem instant_crossing_exact_iff {s : SessionData} (hs : s.Contract) {built c : Ctx F} {now : Timestamp}
    (hmarket : c.market = s.view now) {above : Bool} {level : IndicatorRef F} {cond : Cond F}
    (hbuilt : built.crossing above level = .ok cond) :
    (cond.eval c = .ok true ↔ CrossedAt (s.quotes built.spot) (c.levelAt level) above now) ↔
      LastPairTells (s.quotes built.spot) (c.levelAt level) above now := by
  rw [Ctx.crossing_eq_ok hbuilt]
  exact instantCross_exact_iff (hs.ascending built.spot) hmarket

/-! ### A cross that is reported twice -/

/-- A session of two instruments, replayed event by event. -/
def pairSession (a b : QuoteColumns) : SessionData where
  date := ⟨20250701⟩
  registry := {}
  instruments := [0, 1]
  quotes id := if id = 0 then a else if id = 1 then b else {}
  totalObservations := a.size + b.size
  eventOrder := []
  timeline := []
  printedBy := SessionData.lookPrintedBy (fun id => if id = 0 then a else if id = 1 then b else {})

theorem pairSession_contract {a b : QuoteColumns} (ha : a.Aligned) (hb : b.Aligned) (hasc : a.Ascending)
    (hbsc : b.Ascending) (hasize : a.size < 2 ^ 32) (hbsize : b.size < 2 ^ 32) : (pairSession a b).Contract := by
  have hquotes : ∀ P : QuoteColumns → Prop, P a → P b → P {} → ∀ id, P ((pairSession a b).quotes id) := by
    intro P h₀ h₁ h id
    show P (if id = 0 then a else if id = 1 then b else {})
    split_ifs
    · exact h₀
    · exact h₁
    · exact h
  exact {
    nodup := show [(0 : InstrumentId), 1].Nodup by decide
    listed := by
      intro id hid
      have h₀ : id ≠ 0 := fun h => hid (by simp [h, pairSession])
      have h₁ : id ≠ 1 := fun h => hid (by simp [h, pairSession])
      simp [pairSession, h₀, h₁]
    aligned := hquotes _ ha hb (by constructor <;> rfl)
    ascending := hquotes _ hasc hbsc (by simp [QuoteColumns.Ascending])
    located := hquotes (fun c => c.size < 2 ^ 32) hasize hbsize (by simp [QuoteColumns.size])
    total := by simp [pairSession]
    eventOrder := .inl rfl
    timeline := .inl rfl
    printedBy := fun _ _ => rfl }

/-- Spot prints 0.90 and then 1.10; the other instrument prints afterwards. -/
def crossedSession : SessionData := pairSession { flatQuotes [1, 2] with last := [90, 110] } (flatQuotes [3])

theorem crossedSession_contract : crossedSession.Contract :=
  pairSession_contract (by constructor <;> rfl) (by constructor <;> rfl) (by unfold QuoteColumns.Ascending; decide)
    (by unfold QuoteColumns.Ascending; decide) (by decide) (by decide)

/-- What the strategy sees at a step; its level is the close of one bar, a rupee. -/
def crossedCtx (now : Timestamp) : Ctx ℚ where
  market := crossedSession.view now
  portfolio := .empty crossSpreadFill 0 noCosts
  underlying := 0
  spot := 0
  date := crossedSession.date
  utcOffset := kISTOffsetSeconds
  anchor := 0
  rate := 0
  margin := defaultMarginModel
  calendar := none
  series := [({ bars := [{ closeTime := 1, close := 100 }] } : BarSeries).view]

def crossedLevel : IndicatorRef ℚ := ⟨0, .sma 1⟩

theorem crossedCtx_crossing :
    (crossedCtx 1).crossing true crossedLevel = .ok (Ctx.instantCross 0 crossedLevel true) := rfl

/-- Spot crosses at 2. At 3 it does not print, and the condition still holds. -/
theorem quiet_spot_crosses_again :
    crossedSession.Contract ∧ 3 ∈ crossedSession.steps ∧
    ∃ cond, (crossedCtx 1).crossing true crossedLevel = .ok cond ∧ cond.eval (crossedCtx 3) = .ok true ∧
      ¬ CrossedAt (crossedSession.quotes 0) ((crossedCtx 3).levelAt crossedLevel) true 3 := by
  refine ⟨crossedSession_contract, by decide, _, crossedCtx_crossing, ?_, ?_⟩
  · have hmarket : (crossedCtx 3).market = crossedSession.view 3 := rfl
    rw [instantCross_eq_true hmarket]
    exact ⟨1, by decide, le_rfl, 1, by decide +kernel, 1, by decide +kernel, by decide +kernel, by decide +kernel⟩
  · rintro ⟨j, hj, hsize, htime, _⟩
    have hj1 : j = 1 := by
      have hlt : j < 2 := hsize
      omega
    rw [hj1] at htime
    exact absurd htime (by decide)

/-- At 2 the condition is exact. -/
theorem instant_crossing_exact_iff_printing :
    ∃ cond, (crossedCtx 1).crossing true crossedLevel = .ok cond ∧
      (cond.eval (crossedCtx 2) = .ok true ↔
        CrossedAt (crossedSession.quotes 0) ((crossedCtx 2).levelAt crossedLevel) true 2) := by
  have hmarket : (crossedCtx 2).market = crossedSession.view 2 := rfl
  refine ⟨_, crossedCtx_crossing,
    (instant_crossing_exact_iff crossedSession_contract hmarket crossedCtx_crossing).mpr ⟨?_, ?_⟩⟩
  · intro j i hj hsize _ hidx hcross
    have hj1 : j = 1 := by
      have hlt : j < 2 := hsize
      omega
    have hi1 : some 1 = some i := hidx
    cases hi1
    rw [hj1] at hcross
    exact hcross
  · intro i hidx hquiet _ _
    have hi1 : some 1 = some i := hidx
    cases hi1
    exact absurd hquiet (by decide)

end Volforge
