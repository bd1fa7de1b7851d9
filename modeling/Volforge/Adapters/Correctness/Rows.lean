import Volforge.Adapters.GfdlCsv
import Volforge.Core.Correctness.MemorySource

/-!
# `Adapters.Correctness.Rows` — what the rows of a file put into the session

The loop over the rows carries the one date of the day along, which the first row of the day may set. Seen from the end
that date is fixed (`dayDate`), and each line either is a row of the day or is skipped.

## Contents
- **Histories.** A session with the observations that were appended to it.
- **Dates and times.** Rows in range have a valid date, and times that fit.
- **Lines.** `parse_csv_rows` line by line.
-/

namespace Volforge

/-! ## Histories -/

/-- The last time is the latest. -/
theorem QuoteColumns.Ascending.le_getLast {c : QuoteColumns} (h : c.Ascending) {back t : Int64}
    (hback : c.ts.getLast? = some back) (ht : t ∈ c.ts) : t ≤ back := by
  obtain ⟨front, hfront⟩ := List.getLast?_eq_some_iff.mp hback
  have hall : c.ts.Pairwise (fun a b => a.toInt ≤ b.toInt) := h
  rw [hfront, List.pairwise_append] at hall
  rw [hfront] at ht
  rw [Int64.le_iff_toInt_le]
  rcases List.mem_append.mp ht with ht | ht
  · exact hall.2.2 t ht back (by simp)
  · rw [List.mem_singleton.mp ht]

namespace MemorySessionData

theorem lookup_cons_eq (key id : InstrumentId) (c : QuoteColumns) (m : List (InstrumentId × QuoteColumns)) :
    ((key, c) :: m).lookup id = if id = key then some c else m.lookup id := by
  rw [List.lookup_cons]
  by_cases heq : id = key
  · simp [heq]
  · simp [heq, beq_false_of_ne heq]

theorem lookup_modifySeries (id id' : InstrumentId) (f : QuoteColumns → QuoteColumns)
    {m : List (InstrumentId × QuoteColumns)} (hm : (m.map (·.1)).Pairwise (· < ·)) :
    (modifySeries id f m).lookup id' = if id' = id then some (f ((m.lookup id).getD {})) else m.lookup id' := by
  induction m with
  | nil =>
      unfold modifySeries
      rw [lookup_cons_eq]
      rfl
  | cons x rest ih =>
      obtain ⟨key, c⟩ := x
      obtain ⟨hkey, hrest⟩ := List.pairwise_cons.mp hm
      unfold modifySeries
      by_cases hlt : id < key
      · -- the keys of the map are all larger
        have hnone : ((key, c) :: rest).lookup id = none := by
          rw [List.lookup_eq_none_iff]
          intro y hy
          have hy : key ≤ y.1 := by
            rcases List.mem_cons.mp hy with rfl | hy
            · exact le_refl _
            · exact le_of_lt (hkey y.1 (List.mem_map.mpr ⟨y, hy, rfl⟩))
          simpa using ne_of_lt (lt_of_lt_of_le hlt hy)
        rw [if_pos hlt, lookup_cons_eq, hnone]
        rfl
      · rw [if_neg hlt]
        by_cases hsame : id = key
        · subst hsame
          rw [if_pos rfl, lookup_cons_eq, lookup_cons_eq, lookup_cons_eq, if_pos rfl]
          by_cases heq : id' = id
          · rw [if_pos heq, if_pos heq, Option.getD_some]
          · rw [if_neg heq, if_neg heq, if_neg heq]
        · rw [if_neg hsame, lookup_cons_eq, lookup_cons_eq, lookup_cons_eq, if_neg hsame, ih hrest]
          by_cases heq : id' = id
          · rw [if_pos heq, if_neg (by rw [heq]; exact hsame)]
            exact (if_pos heq).symm
          · rw [if_neg heq, if_neg heq]

/-- An observation goes to the end of its instrument's columns, and leaves the others alone. -/
theorem quotes_append {s s' : MemorySessionData} (h : s.Built) {id : InstrumentId} {q : Quote}
    (happend : s.append id q = .ok s') (id' : InstrumentId) :
    s'.quotes id' = if id' = id then (s.quotes id).push q else s.quotes id' := by
  unfold MemorySessionData.append at happend
  obtain ⟨_, happend⟩ := Run.guard_eq_ok.mp happend
  cases happend
  unfold MemorySessionData.quotes
  rw [lookup_modifySeries id id' _ h.keys]
  by_cases heq : id' = id
  · rw [if_pos heq, if_pos heq, Option.getD_some]
  · rw [if_neg heq, if_neg heq]

/-- The session holds the observations of a history, each in its instrument's columns. -/
structure Holds (s : MemorySessionData) (hist : List (InstrumentId × Quote)) : Prop where
  built : s.Built
  total : s.total = hist.length
  times : ∀ id, (s.quotes id).ts = (hist.filter (fun x => x.1 = id)).map (fun x => Int64.ofInt x.2.ts)
  instruments : ∀ id, id ∈ s.instruments ↔ ∃ x ∈ hist, x.1 = id

theorem holds_new (date : Date) (registry : InstrumentRegistry) : Holds { date := date, registry := registry } [] where
  built := new_built date registry
  total := rfl
  times _ := rfl
  instruments _ := by simp

/-- `append` refuses an observation exactly when one of its instrument is later. -/
theorem Holds.append {s : MemorySessionData} {hist : List (InstrumentId × Quote)} (h : s.Holds hist)
    (id : InstrumentId) (q : Quote) :
    Run.Ends (fun s' => s'.Holds (hist ++ [(id, q)]) ∧ s'.date = s.date ∧
        ∀ x ∈ hist, x.1 = id → Int64.ofInt x.2.ts ≤ Int64.ofInt q.ts)
      (∃ x ∈ hist, x.1 = id ∧ Int64.ofInt q.ts < Int64.ofInt x.2.ts) (s.append id q) := by
  have hasc : (s.quotes id).Ascending := by
    rcases h.built.quotes_cases id with hkept | hempty
    · exact hkept.ascending
    · rw [hempty]
      exact .nil
  have hmem : ∀ t, t ∈ (s.quotes id).ts ↔ ∃ x ∈ hist, x.1 = id ∧ Int64.ofInt x.2.ts = t := by
    intro t
    rw [h.times]
    simp [and_assoc]
  cases happend : s.append id q with
  | error e =>
      -- the observation before it in the series is the one that is later
      unfold MemorySessionData.append at happend
      dsimp only at happend
      split_ifs at happend with hlate
      obtain ⟨back, hback, hlt⟩ := (Option.any_eq_true _ _).mp hlate
      obtain ⟨x, hx, hid, hts⟩ := (hmem back).mp (List.mem_of_getLast? hback)
      refine ⟨x, hx, hid, ?_⟩
      rw [hts]
      simpa using hlt
  | ok s' =>
      have hbuilt := h.built.append happend
      have hquotes := quotes_append h.built happend
      unfold MemorySessionData.append at happend
      obtain ⟨hordered, happend⟩ := Run.guard_eq_ok.mp happend
      cases happend
      have hinst : ∀ id', (s.series.lookup id').isSome ↔ id' ∈ s.instruments := by
        intro id'
        rw [h.built.instruments.mem_iff, List.lookup_isSome_iff, List.mem_map]
        simp only [beq_iff_eq, @eq_comm _ id']
      refine ⟨⟨hbuilt, ?_, fun id' => ?_, fun id' => ?_⟩, rfl, ?_⟩
      · show s.total + 1 = _
        rw [h.total, List.length_append, List.length_singleton]
      · rw [List.filter_append, List.map_append, ← h.times]
        rw [hquotes]
        by_cases heq : id' = id
        · rw [if_pos heq, heq]
          simp [QuoteColumns.push]
        · rw [if_neg heq]
          simp [Ne.symm heq]
      · -- the instrument is listed once, when its series begins
        have hstep : id' ∈ (if (s.series.lookup id).isSome then s.instruments else s.instruments ++ [id]) ↔
            id' ∈ s.instruments ∨ id = id' := by
          by_cases hknown : (s.series.lookup id).isSome
          · rw [if_pos hknown]
            refine ⟨.inl, fun hid => hid.elim (fun hid => hid) (fun hid => ?_)⟩
            rw [← hid]
            exact (hinst id).mp hknown
          · rw [if_neg hknown, List.mem_append, List.mem_singleton, @eq_comm _ id]
        refine hstep.trans ?_
        rw [h.instruments]
        simp [or_and_right, exists_or]
      · -- the series ascends, so its last time bounds them all
        intro x hx hid
        have ht := (hmem _).mpr ⟨x, hx, hid, rfl⟩
        cases hlast : (s.quotes id).ts.getLast? with
        | none => simp [List.getLast?_eq_none_iff.mp hlast] at ht
        | some back =>
            have hle := hasc.le_getLast hlast ht
            have hback : ¬ Int64.ofInt q.ts < back := by
              intro hlt
              refine hordered ?_
              show (s.quotes id).ts.getLast?.any _ = true
              rw [hlast]
              simpa using hlt
            exact Int64.le_trans hle (Int64.not_lt.mp hback)

end MemorySessionData

namespace Gfdl

/-! ## Dates and times -/

/-- The ranges of a row's numbers. -/
structure CsvRow.Ranges (r : CsvRow) : Prop where
  year : 1990 ≤ r.yyyy.toInt ∧ r.yyyy.toInt ≤ 2100
  month : 1 ≤ r.mm.toInt ∧ r.mm.toInt ≤ 12
  day : 1 ≤ r.dd.toInt ∧ r.dd.toInt ≤ 31
  hour : 0 ≤ r.hh.toInt ∧ r.hh.toInt ≤ 23
  minute : 0 ≤ r.mi.toInt ∧ r.mi.toInt ≤ 59
  second : 0 ≤ r.ss.toInt ∧ r.ss.toInt ≤ 59

theorem CsvRow.inRange_iff (r : CsvRow) : r.inRange = true ↔ r.Ranges := by
  have hlit : (1990 : Int64).toInt = 1990 ∧ (2100 : Int64).toInt = 2100 ∧ (1 : Int64).toInt = 1 ∧
      (12 : Int64).toInt = 12 ∧ (31 : Int64).toInt = 31 ∧ (0 : Int64).toInt = 0 ∧ (23 : Int64).toInt = 23 ∧
      (59 : Int64).toInt = 59 := by decide
  obtain ⟨h1990, h2100, h1, h12, h31, h0, h23, h59⟩ := hlit
  unfold inRange
  simp only [Bool.not_eq_true', Bool.or_eq_false_iff, decide_eq_false_iff_not, Int64.lt_iff_toInt_lt, h1990, h2100, h1,
    h12, h31, h0, h23, h59]
  constructor
  · rintro ⟨⟨⟨⟨⟨⟨⟨⟨⟨⟨⟨hy, hy'⟩, hm⟩, hm'⟩, hd⟩, hd'⟩, hh⟩, hh'⟩, hi⟩, hi'⟩, hs⟩, hs'⟩
    constructor <;> omega
  · rintro ⟨hy, hm, hd, hh, hi, hs⟩
    omega

theorem daysFromCivil_bounds {y : Int} {m d : Nat} (hy : 1990 ≤ y) (hy' : y ≤ 2100) (hd : 1 ≤ d)
    (hd' : d ≤ 31) : 6000 ≤ daysFromCivil y m d ∧ daysFromCivil y m d ≤ 48000 := by
  unfold daysFromCivil
  dsimp only
  generalize hyear : (if m ≤ 2 then y - 1 else y) = year
  have hyears : 1989 ≤ year ∧ year ≤ 2100 := by
    split_ifs at hyear <;> omega
  rw [if_pos (by omega), Int.tdiv_eq_ediv_of_nonneg (by omega)]
  -- the century in which the year lies
  have hera : (year / 400 = 4 ∧ year ≤ 1999) ∨ (year / 400 = 5 ∧ 2000 ≤ year) := by omega
  have hyoe : toUnsigned (year - year / 400 * 400) = (year - year / 400 * 400).toNat := by
    unfold toUnsigned
    omega
  rw [hyoe]
  generalize hoff : (year - year / 400 * 400).toNat = yoe
  have hmp : (m + 9) % 2 ^ 32 % 12 ≤ 11 := by omega
  generalize (m + 9) % 2 ^ 32 % 12 = mp at hmp ⊢
  have hdoy : ((153 * mp + 2) / 5 + d + (2 ^ 32 - 1)) % 2 ^ 32 = (153 * mp + 2) / 5 + d - 1 := by omega
  rw [hdoy]
  have hdays : (153 * mp + 2) / 5 + d - 1 ≤ 367 := by omega
  generalize (153 * mp + 2) / 5 + d - 1 = doy at hdays ⊢
  have hdoe : (yoe * 365 + yoe / 4 - yoe / 100 + doy) % 2 ^ 32 = yoe * 365 + yoe / 4 - yoe / 100 + doy :=
    Nat.mod_eq_of_lt (by omega)
  rw [hdoe]
  rcases hera with ⟨hera, hbound⟩ | ⟨hera, hbound⟩
  · rw [hera] at hoff ⊢
    omega
  · rw [hera] at hoff ⊢
    omega

/-- A sum and a product that stay within 64 bits are exact. -/
theorem toInt_mul_add {a b c : Int64} (hlow : 0 ≤ a.toInt) (hhigh : a.toInt ≤ 10000000) (hb : 0 ≤ b.toInt)
    (hb' : b.toInt ≤ 10000) (hc : 0 ≤ c.toInt) (hc' : c.toInt ≤ 1000000000000) :
    (a * b + c).toInt = a.toInt * b.toInt + c.toInt := by
  have hle : a.toInt * b.toInt ≤ 10000000 * 10000 := mul_le_mul hhigh hb' hb (by norm_num)
  have hnonneg : 0 ≤ a.toInt * b.toInt := mul_nonneg hlow hb
  have hmul : (a * b).toInt = a.toInt * b.toInt := by
    rw [Int64.toInt_mul]
    exact Int.bmod_eq_of_le (by omega) (by omega)
  rw [Int64.toInt_add, hmul]
  exact Int.bmod_eq_of_le (by omega) (by omega)

namespace CsvRow

theorem Ranges.toInt_date {r : CsvRow} (h : r.Ranges) :
    r.date.yyyymmdd.toInt = r.yyyy.toInt * 10000 + r.mm.toInt * 100 + r.dd.toInt := by
  obtain ⟨hy, hm, hd, _, _, _⟩ := h
  have hassoc : r.yyyy * 10000 + r.mm * 100 + r.dd = r.yyyy * 10000 + (r.mm * 100 + r.dd) := Int64.add_assoc ..
  have hlit : (10000 : Int64).toInt = 10000 ∧ (100 : Int64).toInt = 100 := by decide
  have hlow : (r.mm * 100 + r.dd).toInt = r.mm.toInt * 100 + r.dd.toInt := by
    rw [toInt_mul_add (by omega) (by omega) (by omega) (by omega) (by omega) (by omega), hlit.2]
  have hsum : (r.yyyy * 10000 + r.mm * 100 + r.dd).toInt = r.yyyy.toInt * 10000 + (r.mm.toInt * 100 + r.dd.toInt) := by
    rw [hassoc, toInt_mul_add (by omega) (by omega) (by omega) (by omega) (by omega) (by omega), hlow, hlit.1]
  show (r.yyyy * 10000 + r.mm * 100 + r.dd).toInt32.toInt = _
  rw [Int64.toInt_toInt32, hsum]
  have hbmod := Int.bmod_eq_of_le (n := r.yyyy.toInt * 10000 + (r.mm.toInt * 100 + r.dd.toInt)) (m := 2 ^ 32)
    (by omega) (by omega)
  rw [hbmod]
  omega

theorem Ranges.valid {r : CsvRow} (h : r.Ranges) : r.date.valid = true := by
  have hdate := h.toInt_date
  have hy := h.year
  have hm := h.month
  have hd := h.day
  unfold Date.valid
  have hzero : (0 : Int32).toInt = 0 := by decide
  rw [decide_eq_true_eq, Int32.lt_iff_toInt_lt, hdate, hzero]
  omega

theorem Ranges.toInt_seconds {r : CsvRow} (h : r.Ranges) :
    (r.hh * 3600 + r.mi * 60 + r.ss).toInt = r.hh.toInt * 3600 + r.mi.toInt * 60 + r.ss.toInt := by
  obtain ⟨_, _, _, hh, hi, hs⟩ := h
  have hassoc : r.hh * 3600 + r.mi * 60 + r.ss = r.hh * 3600 + (r.mi * 60 + r.ss) := Int64.add_assoc ..
  have hlit : (3600 : Int64).toInt = 3600 ∧ (60 : Int64).toInt = 60 := by decide
  have hlow : (r.mi * 60 + r.ss).toInt = r.mi.toInt * 60 + r.ss.toInt := by
    rw [toInt_mul_add (by omega) (by omega) (by omega) (by omega) (by omega) (by omega), hlit.2]
  rw [hassoc, toInt_mul_add (by omega) (by omega) (by omega) (by omega) (by omega) (by omega), hlow, hlit.1]
  omega

/-- The day of the calendar of a date in range. -/
theorem Ranges.days_eq {r : CsvRow} (h : r.Ranges) :
    r.date.days = daysFromCivil r.yyyy.toInt r.mm.toInt.toNat r.dd.toInt.toNat := by
  have hdate := h.toInt_date
  obtain ⟨hy, hm, hd, _, _, _⟩ := h
  have hyear : r.date.year = r.yyyy.toInt := by
    unfold Date.year
    rw [hdate, Int.tdiv_eq_ediv_of_nonneg (by omega)]
    omega
  have hmonth : r.date.month = r.mm.toInt := by
    unfold Date.month
    rw [hdate, Int.tdiv_eq_ediv_of_nonneg (by omega), Int.tmod_eq_emod_of_nonneg (by omega)]
    omega
  have hday : r.date.day = r.dd.toInt := by
    unfold Date.day
    rw [hdate, Int.tmod_eq_emod_of_nonneg (by omega)]
    omega
  have hm32 : toUnsigned r.mm.toInt = r.mm.toInt.toNat := by unfold toUnsigned; omega
  have hd32 : toUnsigned r.dd.toInt = r.dd.toInt.toNat := by unfold toUnsigned; omega
  unfold Date.days
  rw [hyear, hmonth, hday, hm32, hd32]

theorem Ranges.days_bounds {r : CsvRow} (h : r.Ranges) : 6000 ≤ r.date.days ∧ r.date.days ≤ 48000 := by
  have hd := h.day
  rw [h.days_eq]
  exact daysFromCivil_bounds h.year.1 h.year.2 (by omega) (by omega)

/-- The instant of a date and time in range. -/
theorem Ranges.ts_eq {r : CsvRow} (h : r.Ranges) (options : GfdlLoadOptions) :
    (r.ts options : Int) = (r.date.days * 86400 + (r.hh.toInt * 3600 + r.mi.toInt * 60 + r.ss.toInt) -
      options.utcOffsetSeconds.toInt) * 1000000000 := by
  unfold ts
  rw [h.toInt_seconds]
  rfl

/-- A row's time lies within the 24 hours of its date, and fits 64 bits. -/
theorem Ranges.ts_bounds {r : CsvRow} (h : r.Ranges) (options : GfdlLoadOptions) :
    timestampOf r.date 0 options.utcOffsetSeconds.toInt ≤ r.ts options ∧
      r.ts options < timestampOf r.date 86400 options.utcOffsetSeconds.toInt ∧
      (Int64.ofInt (r.ts options)).toInt = r.ts options := by
  have hdays := h.days_bounds
  have hts := h.ts_eq options
  obtain ⟨_, _, _, hh, hi, hs⟩ := h
  have hlow := options.utcOffsetSeconds.le_toInt
  have hhigh := options.utcOffsetSeconds.toInt_lt
  generalize options.utcOffsetSeconds.toInt = offset at hlow hhigh hts ⊢
  have hstart : (timestampOf r.date 0 offset : Int) = (r.date.days * 86400 + 0 - offset) * 1000000000 := rfl
  have hend : (timestampOf r.date 86400 offset : Int) = (r.date.days * 86400 + 86400 - offset) * 1000000000 := rfl
  rw [hts, hstart, hend]
  refine ⟨by lia, by lia, Int64.toInt_ofInt_of_le (by omega) (by omega)⟩

end CsvRow

/-! ## Lines -/

/-- The row of a line that has all ten fields, when its date and time are in range. -/
def rowIn (line : Bytes) : Option CsvRow :=
  if line.count (chr ',') ≠ 9 then none else if (scanRow line).inRange then some (scanRow line) else none

/-- The date of the day: the expected one, or that of the first row in range. -/
def dayDate (expected : Date) (lines : List Bytes) : Date :=
  if expected.valid then expected else ((lines.filterMap rowIn).head?.map CsvRow.date).getD expected

/-- The line's row, when it is one of the day. -/
def rowOf (d : Date) (line : Bytes) : Option CsvRow := (rowIn line).filter (fun r => r.date = d)

/-- The rows of the day that are not before the one kept last. -/
def rowsFrom (d : Date) (options : GfdlLoadOptions) : Option Timestamp → List Bytes → List CsvRow
  | _, [] => []
  | previous, line :: lines =>
      match rowOf d line with
      | none => rowsFrom d options previous lines
      | some r =>
          if previous.any (fun previous => r.ts options < previous) then rowsFrom d options previous lines
          else r :: rowsFrom d options (some (r.ts options)) lines

theorem rowOf_eq_some {d : Date} {line : Bytes} {r : CsvRow} (h : rowOf d line = some r) :
    rowIn line = some r ∧ r.date = d ∧ r.Ranges := by
  obtain ⟨hin, hd⟩ := Option.filter_eq_some_iff.mp h
  refine ⟨hin, by simpa using hd, ?_⟩
  unfold rowIn at hin
  split_ifs at hin with hcount hrange
  cases hin
  exact (CsvRow.inRange_iff _).mp hrange

/-- A day with a first row has that row's date. -/
theorem dayDate_of_row {expected : Date} {line : Bytes} {r : CsvRow} (more : List Bytes) (hrow : rowIn line = some r) :
    dayDate expected (line :: more) = if expected.valid then expected else r.date := by
  unfold dayDate
  rw [List.filterMap_cons_some hrow]
  rfl

theorem dayDate_of_none {expected : Date} {line : Bytes} (more : List Bytes) (hrow : rowIn line = none) :
    dayDate expected (line :: more) = dayDate expected more := by
  unfold dayDate
  rw [List.filterMap_cons_none hrow]

section
variable (id : InstrumentId) (options : GfdlLoadOptions) (registry : InstrumentRegistry) {s : RowLoop} {line : Bytes}
  {more : List Bytes} {d : Date}

/-- A line that is no row of the day is skipped. -/
theorem parseRow_of_none (hday : d = dayDate s.sink.expected (line :: more)) (hrow : rowOf d line = none) :
    parseRow id options registry s line = .ok s.skip ∧ d = dayDate s.sink.expected more := by
  unfold parseRow
  cases hin : rowIn line with
  | none =>
      rw [dayDate_of_none more hin] at hday
      refine ⟨?_, hday⟩
      unfold rowIn at hin
      split_ifs at hin with hcount hrange
      · rw [if_pos hcount]
      · simp [hcount, hrange]
  | some r =>
      rw [dayDate_of_row more hin] at hday
      have hother : r.date ≠ d := by
        intro heq
        rw [rowOf, hin, Option.filter_some, if_pos (by simpa using heq)] at hrow
        cases hrow
      have hvalid : s.sink.expected.valid = true := by
        by_contra hvalid
        rw [if_neg hvalid] at hday
        exact hother hday.symm
      rw [if_pos hvalid] at hday
      unfold rowIn at hin
      split_ifs at hin with hcount hrange
      cases hin
      have hne : (scanRow line).date ≠ s.sink.expected := hday ▸ hother
      refine ⟨?_, ?_⟩
      · simp [hcount, hrange, hvalid, hne]
      · unfold dayDate
        rw [if_pos hvalid]
        exact hday

/-- A line that is a row of the day is kept, unless it is before the row kept last. -/
theorem parseRow_of_some {r : CsvRow} (hday : d = dayDate s.sink.expected (line :: more))
    (hrow : rowOf d line = some r) :
    parseRow id options registry s line =
        (if s.previous.any (fun previous => r.ts options < previous) then .ok (s.onDay d).skip
          else keepRow id options registry (s.onDay d) r) ∧
      (s.onDay d).sink.expected = d ∧ d = dayDate d more := by
  obtain ⟨hin, hd, hranges⟩ := rowOf_eq_some hrow
  have hvalid : d.valid = true := hd ▸ hranges.valid
  rw [dayDate_of_row more hin, hd] at hday
  have hpass : ¬ (s.sink.expected.valid && decide (d ≠ s.sink.expected)) = true := by
    by_cases hset : s.sink.expected.valid = true
    · rw [if_pos hset] at hday
      simp [hday]
    · simp [hset]
  unfold rowIn at hin
  split_ifs at hin with hcount hrange
  cases hin
  refine ⟨?_, ?_, by rw [dayDate, if_pos hvalid]⟩
  · unfold parseRow
    rw [if_neg hcount]
    dsimp only
    rw [hd, hrange, if_neg (by simp), if_neg hpass]
    rfl
  · show (if s.sink.expected.valid then s.sink.expected else d) = d
    exact hday.symm

end

/-! ## Files -/

/-- Observations of one instrument come in the order of time. -/
def Ordered {K : Type} (hist : List (K × Quote)) : Prop := hist.Pairwise (fun a b => a.1 = b.1 → a.2.ts ≤ b.2.ts)

/-- The sink has the rows of a history, all of them of the day. -/
structure Stored (d : Date) (options : GfdlLoadOptions) (sink : RowSink) (hist : List (InstrumentId × Quote)) :
    Prop where
  read : sink.rowsRead = hist.length
  fresh : sink.session = none → hist = []
  holds : ∀ s, sink.session = some s → s.Holds hist ∧ s.date = d ∧ sink.date = d ∧ hist ≠ []
  rows : ∀ x ∈ hist, ∃ r : CsvRow, r.Ranges ∧ r.date = d ∧ x.2 = r.quote options

theorem Stored.exact {d : Date} {options : GfdlLoadOptions} {sink : RowSink} {hist : List (InstrumentId × Quote)}
    (h : Stored d options sink hist) {x : InstrumentId × Quote} (hx : x ∈ hist) :
    (Int64.ofInt x.2.ts).toInt = x.2.ts := by
  obtain ⟨r, hr, _, hq⟩ := h.rows x hx
  rw [hq]
  exact (hr.ts_bounds options).2.2

theorem Stored.openSession {d : Date} {options : GfdlLoadOptions} {sink : RowSink} {hist : List (InstrumentId × Quote)}
    (h : Stored d options sink hist) (registry : InstrumentRegistry) :
    (sink.openSession registry d).1.Holds hist ∧ (sink.openSession registry d).1.date = d ∧
      (sink.openSession registry d).2 = d := by
  unfold RowSink.openSession
  cases hs : sink.session with
  | none =>
      rw [h.fresh hs]
      exact ⟨MemorySessionData.holds_new _ _, rfl, rfl⟩
  | some session =>
      obtain ⟨hholds, hsession, hdate, _⟩ := h.holds session hs
      exact ⟨hholds, hsession, hdate⟩

section
variable (id : InstrumentId) {options : GfdlLoadOptions} (registry : InstrumentRegistry) {d : Date}
  {hist : List (InstrumentId × Quote)}

/-- The step lemma of `keepRow`: it fails exactly when the row is before one of its instrument. -/
theorem keepRow_ends {s : RowLoop} {r : CsvRow} (h : Stored d options s.sink hist) (hord : Ordered hist)
    (hr : r.Ranges) (hd : r.date = d) :
    Run.Ends (fun s' => Stored d options s'.sink (hist ++ [(id, r.quote options)]) ∧
        Ordered (hist ++ [(id, r.quote options)]) ∧ s'.previous = some (r.ts options) ∧
        s'.sink.expected = s.sink.expected ∧ s'.sink.rowsRead = s.sink.rowsRead + 1 ∧
        s'.sink.rowsSkipped = s.sink.rowsSkipped)
      (¬ Ordered (hist ++ [(id, r.quote options)])) (keepRow id options registry s r) := by
  have hexact : (Int64.ofInt (r.quote options).ts).toInt = (r.quote options).ts := (hr.ts_bounds options).2.2
  obtain ⟨hholds, hsession, hdate⟩ := h.openSession registry
  unfold keepRow
  rw [hd]
  generalize s.sink.openSession registry d = opened at hholds hsession hdate ⊢
  obtain ⟨session, date⟩ := opened
  dsimp only at hholds hsession hdate ⊢
  have happend := hholds.append id (r.quote options)
  cases hresult : session.append id (r.quote options) with
  | error e =>
      rw [hresult] at happend
      obtain ⟨x, hx, hid, hlt⟩ := happend
      intro hall
      have hle := (List.pairwise_append.mp hall).2.2 x hx _ (List.mem_singleton.mpr rfl) hid
      rw [Int64.lt_iff_toInt_lt, hexact, h.exact hx] at hlt
      exact absurd hle (not_le.mpr hlt)
  | ok session' =>
      rw [hresult] at happend
      obtain ⟨hholds', hdate', hlate⟩ := happend
      refine ⟨⟨?_, nofun, ?_, ?_⟩, ?_, rfl, rfl, rfl, rfl⟩
      · show s.sink.rowsRead + 1 = _
        rw [h.read, List.length_append, List.length_singleton]
      · rintro _ ⟨⟩
        exact ⟨hholds', hdate'.trans hsession, hdate, by simp⟩
      · intro x hx
        rcases List.mem_append.mp hx with hx | hx
        · exact h.rows x hx
        · rw [List.mem_singleton.mp hx]
          exact ⟨r, hr, hd, rfl⟩
      · refine List.pairwise_append.mpr ⟨hord, List.pairwise_singleton _ _, ?_⟩
        intro x hx y hy hid
        rw [List.mem_singleton.mp hy] at hid ⊢
        have hle := hlate x hx hid
        rwa [Int64.le_iff_toInt_le, hexact, h.exact hx] at hle

theorem Stored.skip {s : RowLoop} (h : Stored d options s.sink hist) : Stored d options s.skip.sink hist :=
  ⟨h.read, h.fresh, h.holds, h.rows⟩

theorem Stored.onDay {s : RowLoop} (h : Stored d options s.sink hist) (d' : Date) :
    Stored d options (s.onDay d').sink hist := ⟨h.read, h.fresh, h.holds, h.rows⟩

/-- The rows of the day in one file. -/
def fileRows (d : Date) (options : GfdlLoadOptions) (data : Bytes) : List CsvRow :=
  rowsFrom d options none (linesOf (skipHeader data))

/-- The observations a file gives its instrument. -/
def printsOf {K : Type} (key : K) (options : GfdlLoadOptions) (rows : List CsvRow) : List (K × Quote) :=
  rows.map (fun r => (key, r.quote options))

/-- What the loop over the lines keeps: the history so far, and what the lines left add to it; `count` is that of all
    lines. -/
def Filling (options : GfdlLoadOptions) (d : Date) (all : List (InstrumentId × Quote)) (more : List Bytes) (count : Nat) (rest : List Bytes)
    (s : RowLoop) : Prop :=
  ∃ done, Stored d options s.sink done ∧ Ordered done ∧
    done ++ printsOf id options (rowsFrom d options s.previous rest) = all ∧ d = dayDate s.sink.expected (rest ++ more) ∧
    s.sink.rowsRead + s.sink.rowsSkipped + rest.length = count

/-- The step lemma of the loop over the lines. -/
theorem parseRow_filling {all : List (InstrumentId × Quote)} {more rest : List Bytes} {count : Nat} {s : RowLoop}
    {line : Bytes} (h : Filling id options d all more count (line :: rest) s) :
    Run.Ends (Filling id options d all more count rest) (¬ Ordered all) (parseRow id options registry s line) := by
  obtain ⟨done, hstored, hord, hdone, hday, hcount⟩ := h
  rw [List.cons_append] at hday
  rw [List.length_cons] at hcount
  cases hrow : rowOf d line with
  | none =>
      obtain ⟨hstep, hday⟩ := parseRow_of_none id options registry hday hrow
      rw [hstep]
      refine ⟨done, hstored.skip, hord, ?_, hday, ?_⟩
      · rw [← hdone, rowsFrom, hrow]
        rfl
      · show s.sink.rowsRead + (s.sink.rowsSkipped + 1) + rest.length = _
        omega
  | some r =>
      obtain ⟨hstep, hset, hday⟩ := parseRow_of_some id options registry hday hrow
      obtain ⟨_, hd, hranges⟩ := rowOf_eq_some hrow
      rw [hstep]
      split_ifs with hlate
      · -- before the last row that was kept: the row is skipped
        refine ⟨done, (hstored.onDay d).skip, hord, ?_, ?_, ?_⟩
        · rw [← hdone, rowsFrom, hrow]
          simp only [if_pos hlate]
          rfl
        · show d = dayDate (s.onDay d).sink.expected (rest ++ more)
          rw [hset]
          exact hday
        · show s.sink.rowsRead + (s.sink.rowsSkipped + 1) + rest.length = _
          omega
      · -- the row is kept, unless the session has a later one of the contract
        have hrest : done ++ [(id, r.quote options)] ++
            printsOf id options (rowsFrom d options (some (r.ts options)) rest) = all := by
          rw [← hdone, rowsFrom, hrow]
          simp [if_neg hlate, printsOf]
        refine (keepRow_ends id registry (hstored.onDay d) hord hranges hd).mono ?_ ?_
        · rintro s' ⟨hstored', hord', hprevious, hexpected, hread, hskipped⟩
          refine ⟨_, hstored', hord', ?_, ?_, ?_⟩
          · rw [hprevious]
            exact hrest
          · rw [hexpected, hset]
            exact hday
          · rw [hread, hskipped]
            show s.sink.rowsRead + 1 + s.sink.rowsSkipped + rest.length = _
            omega
        · -- out of order already
          intro hbad hall
          rw [← hrest] at hall
          exact hbad (List.pairwise_append.mp hall).1

/-- **One file**: its rows of the day are appended, the other lines are counted, and it fails exactly when a row of it
    is before one that its instrument already has. -/
theorem parseCsvRows_ends {data : Bytes} {more : List Bytes} {sink : RowSink} (h : Stored d options sink hist)
    (hord : Ordered hist) (hday : d = dayDate sink.expected (linesOf (skipHeader data) ++ more)) :
    Run.Ends (fun x => Stored d options x.1 (hist ++ printsOf id options (fileRows d options data)) ∧
        Ordered (hist ++ printsOf id options (fileRows d options data)) ∧ d = dayDate x.1.expected more ∧
        x.1.rowsRead + x.1.rowsSkipped = sink.rowsRead + sink.rowsSkipped + (linesOf (skipHeader data)).length)
      (¬ Ordered (hist ++ printsOf id options (fileRows d options data)))
      (parseCsvRows data id options registry sink) := by
  unfold parseCsvRows fileRows
  generalize linesOf (skipHeader data) = lines at hday ⊢
  generalize hall : hist ++ printsOf id options (rowsFrom d options none lines) = all
  have hloop : Run.Ends (Filling id options d all more (sink.rowsRead + sink.rowsSkipped + lines.length) [])
      (¬ Ordered all) (lines.foldlM (parseRow id options registry) { sink := sink }) :=
    Run.foldlM_ends (Filling id options d all more (sink.rowsRead + sink.rowsSkipped + lines.length))
      (fun s line rest hs => parseRow_filling id registry hs) ⟨hist, h, hord, hall, hday, rfl⟩
  refine hloop.bind ?_
  rintro s ⟨done, hstored, hord, hdone, hday, hcount⟩
  have hdone : done = all := by simpa [rowsFrom, printsOf] using hdone
  subst hdone
  exact ⟨hstored, hord, by simpa using hday, by simpa using hcount⟩

end

end Gfdl

end Volforge
