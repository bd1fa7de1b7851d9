import Volforge.Lib.Sorted
import Volforge.Core.Types

/-!
# `Core.Quotes` — market observations

A `QuoteColumns` is a whole session of one instrument, one stored column per field; `atRow` reads one row
back as a `Quote`. `indexAtOrBefore` is the only way the engine locates a point in time.
-/

namespace Volforge

/-- One observation of one instrument. -/
structure Quote where
  ts : Timestamp
  last : Price
  bid : Price
  ask : Price
  bidQty : Qty := 0
  askQty : Qty := 0
  lastQty : Qty := 0
  openInterest : Int := 0
deriving Repr, DecidableEq

namespace Quote

def twoSided (q : Quote) : Bool := 0 < q.bid && 0 < q.ask
def spread (q : Quote) : Price := q.ask - q.bid

/-- Midpoint, rounded toward zero. -/
def mid (q : Quote) : Price := (q.bid + q.ask).tdiv 2

end Quote

/-- The columns of one instrument: spans of equal length, ascending by `ts`. -/
structure QuoteColumns where
  ts : List Int64 := []
  last : List Int32 := []
  bid : List Int32 := []
  ask : List Int32 := []
  bidQty : List Int32 := []
  askQty : List Int32 := []
  lastQty : List Int32 := []
  openInterest : List Int64 := []
deriving DecidableEq

namespace QuoteColumns

def size (c : QuoteColumns) : Nat := c.ts.length
def isEmpty (c : QuoteColumns) : Bool := c.ts.isEmpty

/-- The row's time, as a number. -/
def time (c : QuoteColumns) (i : Nat) : Timestamp := (c.ts.getD i 0).toInt

/-- Row `i`; indexing a span past its end has no defined result in the source. -/
def atRow (c : QuoteColumns) (i : Nat) : Quote where
  ts := c.time i
  last := (c.last.getD i 0).toInt
  bid := (c.bid.getD i 0).toInt
  ask := (c.ask.getD i 0).toInt
  bidQty := (c.bidQty.getD i 0).toInt
  askQty := (c.askQty.getD i 0).toInt
  lastQty := (c.lastQty.getD i 0).toInt
  openInterest := (c.openInterest.getD i 0).toInt

/-- `std::upper_bound` over an ascending column: the number of rows at or before `t`. -/
def upperBound (c : QuoteColumns) (t : Timestamp) : Nat :=
  (c.ts.takeWhile (fun x => x.toInt ≤ t)).length

/-- Index of the last observation at or before `t`; `none` is `npos`. -/
def indexAtOrBefore (c : QuoteColumns) (t : Timestamp) : Option Nat :=
  match c.upperBound t with
  | 0 => none
  | k + 1 => some k

/-- The first `n` rows of every column (`span::first`). -/
def first (c : QuoteColumns) (n : Nat) : QuoteColumns where
  ts := c.ts.take n
  last := c.last.take n
  bid := c.bid.take n
  ask := c.ask.take n
  bidQty := c.bidQty.take n
  askQty := c.askQty.take n
  lastQty := c.lastQty.take n
  openInterest := c.openInterest.take n

/-- Every row, in order. -/
def rows (c : QuoteColumns) : List Quote := (List.range c.size).map c.atRow

/-- All spans have equal length. -/
structure Aligned (c : QuoteColumns) : Prop where
  last : c.last.length = c.ts.length
  bid : c.bid.length = c.ts.length
  ask : c.ask.length = c.ts.length
  bidQty : c.bidQty.length = c.ts.length
  askQty : c.askQty.length = c.ts.length
  lastQty : c.lastQty.length = c.ts.length
  openInterest : c.openInterest.length = c.ts.length

/-- Sorted ascending by `ts`. -/
def Ascending (c : QuoteColumns) : Prop := c.ts.Pairwise (fun a b => a.toInt ≤ b.toInt)

theorem isEmpty_eq_false {c : QuoteColumns} {i : Nat} (h : i < c.size) : c.isEmpty = false := by
  rw [isEmpty, List.isEmpty_eq_false_iff, ← List.length_pos_iff]
  exact Nat.lt_of_le_of_lt (Nat.zero_le _) h

/-! ## Locating a point in time -/

theorem upperBound_le_size (c : QuoteColumns) (t : Timestamp) : c.upperBound t ≤ c.size :=
  (List.takeWhile_sublist _).length_le

theorem indexAtOrBefore_eq_some {c : QuoteColumns} {t : Timestamp} {i : Nat} :
    c.indexAtOrBefore t = some i ↔ c.upperBound t = i + 1 := by
  unfold indexAtOrBefore
  split
  · simp_all
  · simp_all

theorem indexAtOrBefore_eq_none {c : QuoteColumns} {t : Timestamp} :
    c.indexAtOrBefore t = none ↔ c.upperBound t = 0 := by
  unfold indexAtOrBefore
  split
  · simp_all
  · simp_all

theorem time_eq_getElem {c : QuoteColumns} {i : Nat} (h : i < c.ts.length) :
    c.time i = c.ts[i].toInt := by
  simp [time, h]

/-- Everything counted by `upperBound` is at or before `t`. -/
theorem time_le_of_lt_upperBound {c : QuoteColumns} {t : Timestamp} {i : Nat}
    (h : i < c.upperBound t) : c.time i ≤ t := by
  have hi : i < c.ts.length := lt_of_lt_of_le h (c.upperBound_le_size t)
  rw [time_eq_getElem hi]
  simpa using Sorted.of_lt_length_takeWhile hi h

/-- In an ascending column `upperBound` counts exactly the rows at or before `t`. -/
theorem lt_upperBound_iff {c : QuoteColumns} (hasc : c.Ascending) {t : Timestamp} {i : Nat}
    (hi : i < c.size) : i < c.upperBound t ↔ c.time i ≤ t := by
  have hi' : i < c.ts.length := hi
  have hdown : c.ts.Pairwise (fun a b => (decide (b.toInt ≤ t)) = true → decide (a.toInt ≤ t) = true) :=
    hasc.imp (fun {a b} hab hb => by
      simp only [decide_eq_true_eq] at hb ⊢
      exact le_trans hab hb)
  rw [time_eq_getElem hi']
  unfold upperBound
  rw [Sorted.lt_length_takeWhile_iff hdown hi']
  simp

/-- The row `indexAtOrBefore` finds has printed by `t`. -/
theorem indexAtOrBefore_time_le {c : QuoteColumns} {t : Timestamp} {i : Nat}
    (h : c.indexAtOrBefore t = some i) : c.time i ≤ t :=
  time_le_of_lt_upperBound (by rw [indexAtOrBefore_eq_some.mp h]; exact Nat.lt_succ_self i)

theorem indexAtOrBefore_lt_size {c : QuoteColumns} {t : Timestamp} {i : Nat}
    (h : c.indexAtOrBefore t = some i) : i < c.size := by
  have := c.upperBound_le_size t
  rw [indexAtOrBefore_eq_some.mp h] at this
  omega

/-- In an ascending column the row `indexAtOrBefore` finds is the latest one at or before `t`. -/
theorem time_le_time_indexAtOrBefore {c : QuoteColumns} (hasc : c.Ascending) {t : Timestamp} {i j : Nat}
    (h : c.indexAtOrBefore t = some i) (hj : j < c.size) (hjt : c.time j ≤ t) :
    c.time j ≤ c.time i := by
  have hji : j < i + 1 := by
    rw [← indexAtOrBefore_eq_some.mp h]
    exact (lt_upperBound_iff hasc hj).mpr hjt
  have hi := indexAtOrBefore_lt_size h
  rcases Nat.lt_or_eq_of_le (Nat.lt_succ_iff.mp hji) with hlt | rfl
  · have hj' : j < c.ts.length := hj
    have hi' : i < c.ts.length := hi
    rw [time_eq_getElem hj', time_eq_getElem hi']
    exact List.pairwise_iff_getElem.mp hasc j i hj' hi' hlt
  · exact le_refl _

/-! ## Prefixes -/

theorem first_size (c : QuoteColumns) (n : Nat) : (c.first n).size = min n c.size := by
  simp [first, size]

theorem atRow_first (c : QuoteColumns) {n i : Nat} (h : i < n) : (c.first n).atRow i = c.atRow i := by
  simp [atRow, first, time, List.getD_eq_getElem?_getD, h]

theorem rows_first (c : QuoteColumns) {n : Nat} (h : n ≤ c.size) : (c.first n).rows = c.rows.take n := by
  unfold rows
  rw [first_size, Nat.min_eq_left h, ← List.map_take, List.take_range, Nat.min_eq_left h]
  exact List.map_congr_left (fun i hi => atRow_first c (List.mem_range.mp hi))

/-- Clipping at a later instant does not change what is at or before an earlier one. -/
theorem upperBound_first (c : QuoteColumns) {t T : Timestamp} (h : t ≤ T) :
    (c.first (c.upperBound T)).upperBound t = c.upperBound t := by
  unfold upperBound first
  rw [Sorted.takeWhile_take_length_takeWhile]
  intro a ha
  simp only [decide_eq_true_eq] at ha ⊢
  exact le_trans ha h

theorem indexAtOrBefore_first (c : QuoteColumns) {t T : Timestamp} (h : t ≤ T) :
    (c.first (c.upperBound T)).indexAtOrBefore t = c.indexAtOrBefore t := by
  unfold indexAtOrBefore
  rw [upperBound_first c h]

theorem upperBound_mono (c : QuoteColumns) {t T : Timestamp} (h : t ≤ T) :
    c.upperBound t ≤ c.upperBound T := by
  unfold upperBound
  apply Sorted.length_takeWhile_le_of_imp
  intro a ha
  simp only [decide_eq_true_eq] at ha ⊢
  exact le_trans ha h

theorem Ascending.first {c : QuoteColumns} (h : c.Ascending) (n : Nat) : (c.first n).Ascending :=
  List.Pairwise.sublist (List.take_sublist n c.ts) h

theorem rows_ascending {c : QuoteColumns} (h : c.Ascending) : c.rows.Pairwise (fun a b => a.ts ≤ b.ts) := by
  unfold rows
  rw [List.pairwise_map]
  refine List.Pairwise.imp_of_mem ?_ (List.pairwise_lt_range (n := c.size))
  intro i j hi hj hij
  have hi' : i < c.ts.length := List.mem_range.mp hi
  have hj' : j < c.ts.length := List.mem_range.mp hj
  show c.time i ≤ c.time j
  rw [time_eq_getElem hi', time_eq_getElem hj']
  exact List.pairwise_iff_getElem.mp h i j hi' hj' hij

/-- The rows `upperBound` does not count are later. -/
theorem lt_of_mem_drop {c : QuoteColumns} (h : c.Ascending) {T : Timestamp} {q : Quote}
    (hq : q ∈ c.rows.drop (c.upperBound T)) : T < q.ts := by
  unfold rows at hq
  rw [← List.map_drop] at hq
  obtain ⟨i, hi, rfl⟩ := List.mem_map.mp hq
  obtain ⟨k, hk, rfl⟩ := List.mem_iff_getElem.mp hi
  simp only [List.length_drop, List.length_range] at hk
  simp only [List.getElem_drop, List.getElem_range]
  have hsize : c.upperBound T + k < c.size := by omega
  have hnot : ¬ c.time (c.upperBound T + k) ≤ T := by
    rw [← lt_upperBound_iff h hsize]
    omega
  exact not_le.mp hnot

theorem Aligned.first {c : QuoteColumns} (h : c.Aligned) (n : Nat) : (c.first n).Aligned := by
  constructor <;> simp [QuoteColumns.first, h.last, h.bid, h.ask, h.bidQty, h.askQty, h.lastQty,
    h.openInterest]

end QuoteColumns

end Volforge
