import Volforge.Adapters.Correctness.Day
import Volforge.Adapters.Correctness.Fields

/-!
# `Adapters.Correctness.Format` — which lines the loop over a buffer admits

Line by line, the loop does what the format has it do as long as it takes no line that lacks the format for a row that
is due. A row is due when its date and time are in range, its date is that of the day, and its time is not before that
of the row kept last.

## Contents
- **Lines.** What the format has the loop do with a line (`Kept`, `Skipped`), and when it does with its line just that.
- **Main result.** `parser_admits_format_iff`, and a row without a price.
-/

namespace Volforge.Gfdl

/-! ## Lines -/

/-- The row that the scanners make of a line of ten fields, if it is due. -/
def scannedRow (options : GfdlLoadOptions) (day : Date) (previous : Option Timestamp) (line : Bytes) : Option CsvRow :=
  if line.count (chr ',') = 9 ∧ (scanRow line).stamp.Due options day previous then some (scanRow line) else none

/-- The values of a line of the format, if they are due. -/
def dueRow (options : GfdlLoadOptions) (day : Date) (previous : Option Timestamp) (line : Bytes) : Option FieldValues :=
  (strictRow line).filter (fun v => v.stamp.Due options day previous)

theorem scannedRow_eq_some {options : GfdlLoadOptions} {day : Date} {previous : Option Timestamp} {line : Bytes}
    {r : CsvRow} : scannedRow options day previous line = some r ↔
      line.count (chr ',') = 9 ∧ r.stamp.Due options day previous ∧ scanRow line = r := by
  unfold scannedRow
  constructor
  · intro h
    split_ifs at h with hdue
    cases h
    exact ⟨hdue.1, hdue.2, rfl⟩
  · rintro ⟨hcount, hdue, rfl⟩
    rw [if_pos ⟨hcount, hdue⟩]

/-- A time is late when it is before the one kept last. -/
theorem any_late_eq_false {previous : Option Timestamp} {t : Timestamp} :
    previous.any (fun p => decide (t < p)) = false ↔ ∀ p ∈ previous, p ≤ t := by
  cases previous with
  | none => simp
  | some p => simp

/-- The scanners read what the format reads. -/
theorem dueRow_scanned {options : GfdlLoadOptions} {day : Date} {previous : Option Timestamp} {line : Bytes}
    {v : FieldValues} (h : dueRow options day previous line = some v) (hends : ∀ c ∈ line, lineEnd c = false) :
    scannedRow options day previous line = some v.row ∧ v.row.Ranges ∧ v.Stored := by
  obtain ⟨hread, hdue⟩ := Option.filter_eq_some_iff.mp h
  obtain ⟨hcount, hscan, hstored⟩ := strictRow_spec hread hends
  have hdue : v.row.stamp.Due options day previous := by
    rw [hstored.stamp]
    exact of_decide_eq_true hdue
  exact ⟨scannedRow_eq_some.mpr ⟨hcount, hdue, hscan⟩, v.row.ranges_iff.mpr hdue.1, hstored⟩

/-- A line is taken for a row that is due when the scanners make one of it. -/
theorem scannedRow_eq_none {options : GfdlLoadOptions} {day : Date} {previous : Option Timestamp} {line : Bytes}
    (hends : ∀ c ∈ line, lineEnd c = false) :
    scannedRow options day previous line = none ↔ ∀ t, TakenAs line t → ¬ t.Due options day previous := by
  unfold scannedRow
  constructor
  · intro h t htaken hdue
    obtain ⟨hcount, rfl⟩ := (takenAs_iff hends t).mp htaken
    rw [if_pos ⟨hcount, hdue⟩] at h
    cases h
  · intro h
    rw [if_neg]
    rintro ⟨hcount, hdue⟩
    exact h _ ((takenAs_iff hends _).mpr ⟨hcount, rfl⟩) hdue

/-- A line has no line end in it. -/
theorem lineEnd_of_mem_linesOf {data line : Bytes} (h : line ∈ linesOf data) : ∀ c ∈ line, lineEnd c = false := by
  have hnil : ∀ c ∈ ([] : Bytes), lineEnd c = false := fun _ hc => absurd hc List.not_mem_nil
  have hfrom : ∀ (p front : Bytes), (∀ c ∈ front, lineEnd c = false) → ∀ line ∈ linesFrom front p, ∀ c ∈ line,
      lineEnd c = false := by
    intro p
    induction p with
    | nil =>
        intro front hfront line hline
        unfold linesFrom at hline
        split_ifs at hline with hempty
        · cases hline
        · rw [List.mem_singleton.mp hline]
          exact hfront
    | cons b p ih =>
        intro front hfront line hline
        unfold linesFrom at hline
        split_ifs at hline with hend hempty
        · exact ih [] hnil line hline
        · rcases List.mem_cons.mp hline with rfl | hline
          · exact hfront
          · exact ih [] hnil line hline
        · refine ih (front ++ [b]) (fun c hc => ?_) line hline
          rcases List.mem_append.mp hc with hc | hc
          · exact hfront c hc
          · rw [List.mem_singleton.mp hc]
            simpa using hend
  exact hfrom data [] hnil line h

theorem lineEnd_of_mem_rowLines {data line : Bytes} (h : line ∈ rowLines data) : ∀ c ∈ line, lineEnd c = false := by
  unfold rowLines at h
  split_ifs at h
  · exact lineEnd_of_mem_linesOf (List.mem_of_mem_tail h)
  · exact lineEnd_of_mem_linesOf h

/-- The time of the last observation the session has of a contract. -/
def RowSink.lastTime (sink : RowSink) (id : InstrumentId) : Option Int64 :=
  sink.session.bind (fun session => (session.quotes id).ts.getLast?)

/-- The columns the sink holds of a contract. -/
def RowSink.columns (sink : RowSink) (id : InstrumentId) : QuoteColumns :=
  sink.session.elim {} (fun session => session.quotes id)

/-- The values of a line are kept: they go to the end of the columns of the contract, in the session of the day, which
    is made if there is none. The row is counted. -/
structure Kept (id : InstrumentId) (options : GfdlLoadOptions) (registry : InstrumentRegistry) (v : FieldValues)
    (sink sink' : RowSink) : Prop where
  appended : ∃ session, (sink.session.getD { date := v.stamp.date, registry := registry }).append id (v.quote options) =
    .ok session ∧ sink'.session = some session
  stored : sink'.columns id = v.pushedOn options (sink.columns id)
  others : ∀ other ≠ id, sink'.columns other = sink.columns other
  rowsRead : sink'.rowsRead = sink.rowsRead + 1
  rowsSkipped : sink'.rowsSkipped = sink.rowsSkipped

/-- A line is skipped: it is counted, and admits nothing. -/
structure Skipped (sink sink' : RowSink) : Prop where
  session : sink'.session = sink.session
  rowsRead : sink'.rowsRead = sink.rowsRead
  rowsSkipped : sink'.rowsSkipped = sink.rowsSkipped + 1

/-- The loop reads each line as the format has it. -/
inductive ReadsLines (id : InstrumentId) (options : GfdlLoadOptions) (registry : InstrumentRegistry) :
    Date → Option Timestamp → RowLoop → List Bytes → RowLoop → Prop
  | nil {day : Date} {previous : Option Timestamp} {s : RowLoop} : ReadsLines id options registry day previous s [] s
  | kept {day : Date} {previous : Option Timestamp} {s s' t : RowLoop} {line : Bytes} {lines : List Bytes}
      {v : FieldValues} (due : dueRow options day previous line = some v)
      (step : parseRow id options registry s line = .ok s') (keeps : Kept id options registry v s.sink s'.sink)
      (rest : ReadsLines id options registry v.stamp.date (some (v.stamp.instant options.utcOffsetSeconds.toInt)) s'
        lines t) :
      ReadsLines id options registry day previous s (line :: lines) t
  | skipped {day : Date} {previous : Option Timestamp} {s s' t : RowLoop} {line : Bytes} {lines : List Bytes}
      (none_due : dueRow options day previous line = none)
      (step : parseRow id options registry s line = .ok s') (skips : Skipped s.sink s'.sink)
      (rest : ReadsLines id options registry day previous s' lines t) :
      ReadsLines id options registry day previous s (line :: lines) t

/-- The lines that are no header are read as the format has it, one after the other, and nothing else is. -/
def ReadsFormat (id : InstrumentId) (options : GfdlLoadOptions) (registry : InstrumentRegistry) (data : Bytes)
    (sink : RowSink) : Prop :=
  ∃ s, ReadsLines id options registry sink.expected none { sink := sink } (rowLines data) s ∧
    parseCsvRows data id options registry sink = .ok (s.sink, s.rowDate)

/-- Of the lines that have no row of the format that is due, none is taken for a row that is due. -/
def NoneMisread (options : GfdlLoadOptions) : Date → Option Timestamp → List Bytes → Prop
  | _, _, [] => True
  | day, previous, line :: lines =>
      match dueRow options day previous line with
      | some v => NoneMisread options v.stamp.date (some (v.stamp.instant options.utcOffsetSeconds.toInt)) lines
      | none => (∀ t, TakenAs line t → ¬ t.Due options day previous) ∧ NoneMisread options day previous lines

/-- The values of the first line that is due. -/
def firstDue (options : GfdlLoadOptions) (day : Date) (lines : List Bytes) : Option FieldValues :=
  lines.findSome? (dueRow options day none)

/-- The row is not before what the sink holds of the contract already. -/
def RowSink.Admits (sink : RowSink) (id : InstrumentId) (t : Timestamp) : Prop :=
  ∀ back ∈ sink.lastTime id, back ≤ Int64.ofInt t

section
variable (id : InstrumentId) (options : GfdlLoadOptions) (registry : InstrumentRegistry) {s : RowLoop} {line : Bytes}

/-- A line with a row that is due is kept. -/
theorem parseRow_of_due {r : CsvRow} (h : scannedRow options s.sink.expected s.previous line = some r) :
    parseRow id options registry s line = keepRow id options registry (s.onDay r.date) r ∧
      (s.onDay r.date).sink.expected = r.date := by
  obtain ⟨hcount, ⟨hrange, hday, hlate⟩, rfl⟩ := scannedRow_eq_some.mp h
  have hranges := (scanRow line).ranges_iff.mpr hrange
  rw [← hranges.date_eq] at hday
  rw [← hranges.instant_eq] at hlate
  refine ⟨?_, ?_⟩
  · unfold parseRow
    dsimp only
    rw [if_neg (not_not.mpr hcount), if_neg (by simp [(scanRow line).inRange_iff.mpr hranges])]
    have hpass : ¬ (s.sink.expected.valid && decide ((scanRow line).date ≠ s.sink.expected)) = true := by
      simpa using hday
    have hkept : (s.onDay (scanRow line).date).previous.any (fun t => decide ((scanRow line).ts options < t)) = false :=
      any_late_eq_false.mpr hlate
    rw [if_neg hpass, hkept]
    rfl
  · show (if s.sink.expected.valid then s.sink.expected else (scanRow line).date) = (scanRow line).date
    by_cases hvalid : s.sink.expected.valid = true
    · rw [if_pos hvalid]
      exact (hday hvalid).symm
    · rw [if_neg hvalid]

/-- Any other line is counted. -/
theorem parseRow_of_not_due (hset : s.previous ≠ none → s.sink.expected.valid = true)
    (h : scannedRow options s.sink.expected s.previous line = none) :
    ∃ s', parseRow id options registry s line = .ok s' ∧ s'.sink = s.skip.sink ∧ s'.previous = s.previous := by
  have hnot : ∀ r, scannedRow options s.sink.expected s.previous line ≠ some r := by
    intro r hr
    rw [h] at hr
    cases hr
  unfold parseRow
  dsimp only
  by_cases hcount : line.count (chr ',') = 9
  · rw [if_neg (not_not.mpr hcount)]
    by_cases hrange : (scanRow line).inRange = true
    · have hranges := (scanRow line).inRange_iff.mp hrange
      rw [hrange, if_neg (by simp)]
      by_cases hother : (s.sink.expected.valid && decide ((scanRow line).date ≠ s.sink.expected)) = true
      · rw [if_pos hother]
        exact ⟨_, rfl, rfl, rfl⟩
      · -- a row of the day, and so a late one: the day is known by then
        have hday : s.sink.expected.valid = true → (scanRow line).stamp.date = s.sink.expected := by
          rw [← hranges.date_eq]
          simpa using hother
        have hlate : s.previous.any (fun t => decide ((scanRow line).ts options < t)) = true := by
          by_contra hearly
          refine hnot _ (scannedRow_eq_some.mpr ⟨hcount, ⟨(scanRow line).ranges_iff.mp hranges, hday, ?_⟩, rfl⟩)
          rw [← hranges.instant_eq]
          exact any_late_eq_false.mp (eq_false_of_ne_true hearly)
        have hvalid : s.sink.expected.valid = true := by
          refine hset (fun hnone => ?_)
          rw [hnone] at hlate
          cases hlate
        have hlate : (s.onDay (scanRow line).date).previous.any (fun t => decide ((scanRow line).ts options < t)) = true :=
          hlate
        rw [if_neg hother, if_pos hlate]
        refine ⟨_, rfl, ?_, rfl⟩
        unfold RowLoop.skip RowLoop.onDay
        rw [if_pos hvalid]
    · rw [if_pos (by simpa using hrange)]
      exact ⟨_, rfl, rfl, rfl⟩
  · rw [if_pos hcount]
    exact ⟨_, rfl, rfl, rfl⟩

/-- What `append` does to the observations of its instrument. -/
theorem append_cases {session : MemorySessionData} (h : session.Built) (q : Quote) :
    ((∀ back ∈ (session.quotes id).ts.getLast?, back ≤ Int64.ofInt q.ts) →
      ∃ session', session.append id q = .ok session' ∧ session'.Built ∧
        ∀ other, session'.quotes other = if other = id then (session.quotes id).push q else session.quotes other) ∧
    (¬ (∀ back ∈ (session.quotes id).ts.getLast?, back ≤ Int64.ofInt q.ts) → ∃ e, session.append id q = .error e) := by
  have hbound : (session.quotes id).ts.getLast?.any (fun back => decide (Int64.ofInt q.ts < back)) = true ↔
      ¬ ∀ back ∈ (session.quotes id).ts.getLast?, back ≤ Int64.ofInt q.ts := by
    cases (session.quotes id).ts.getLast? with
    | none => simp
    | some back => simp
  constructor
  · intro hlast
    have hok : session.append id q = .ok _ := if_neg (fun hany => hbound.mp hany hlast)
    exact ⟨_, hok, h.append hok, MemorySessionData.quotes_append h hok⟩
  · intro hlast
    exact ⟨_, if_pos (hbound.mpr hlast)⟩

/-- The session a row is appended to. -/
theorem openSession_built {sink : RowSink} (hbuilt : ∀ m ∈ sink.session, m.Built) (d : Date) :
    (sink.openSession registry d).1.Built ∧
      (sink.openSession registry d).1 = sink.session.getD { date := d, registry := registry } ∧
      ∀ other, (sink.openSession registry d).1.quotes other = sink.columns other := by
  unfold RowSink.openSession RowSink.columns
  cases hs : sink.session with
  | none => exact ⟨MemorySessionData.new_built _ _, rfl, fun _ => rfl⟩
  | some session => exact ⟨hbuilt session hs, rfl, fun _ => rfl⟩

omit registry in
theorem lastTime_eq (sink : RowSink) : (sink.columns id).ts.getLast? = sink.lastTime id := by
  unfold RowSink.columns RowSink.lastTime
  cases sink.session <;> rfl

/-- The values of a row that the session admits are kept. -/
theorem keepRow_of_admits {v : FieldValues} (hr : v.row.Ranges) (hv : v.Stored) (hbuilt : ∀ m ∈ s.sink.session, m.Built)
    (h : s.sink.Admits id (v.stamp.instant options.utcOffsetSeconds.toInt)) :
    ∃ s', keepRow id options registry s v.row = .ok s' ∧ Kept id options registry v s.sink s'.sink ∧
      s'.previous = some (v.stamp.instant options.utcOffsetSeconds.toInt) ∧ s'.sink.expected = s.sink.expected ∧
      (∀ m ∈ s'.sink.session, m.Built) ∧
      s'.sink.lastTime id = some (Int64.ofInt (v.stamp.instant options.utcOffsetSeconds.toInt)) := by
  have hdate : v.row.date = v.stamp.date := by rw [hr.date_eq, hv.stamp]
  have hts : v.row.ts options = v.stamp.instant options.utcOffsetSeconds.toInt := by rw [hr.instant_eq, hv.stamp]
  obtain ⟨hopened, hsession, hcolumns⟩ := openSession_built registry hbuilt v.stamp.date
  obtain ⟨session', hok, hbuilt', hquotes⟩ := (append_cases id hopened (v.quote options)).1 (by
    rw [hcolumns, lastTime_eq]
    exact h)
  have hstored : session'.quotes id = v.pushedOn options (s.sink.columns id) := by
    rw [hquotes, if_pos rfl, hcolumns]
    rfl
  refine ⟨{ s with
    previous := some (v.stamp.instant options.utcOffsetSeconds.toInt)
    sink := { s.sink with
      session := some session', date := (s.sink.openSession registry v.stamp.date).2
      rowsRead := s.sink.rowsRead + 1 } }, ?_, ⟨⟨session', hsession ▸ hok, rfl⟩, hstored, ?_, rfl, rfl⟩, rfl, rfl, ?_, ?_⟩
  · unfold keepRow
    rw [hdate, hv.quote_eq hr, hts]
    dsimp only
    rw [hok]
    rfl
  · intro other hother
    show session'.quotes other = _
    rw [hquotes, if_neg hother, hcolumns]
  · rintro _ ⟨⟩
    exact hbuilt'
  · show (session'.quotes id).ts.getLast? = _
    rw [hstored]
    exact List.getLast?_concat

/-- A row that the session refuses ends the run. -/
theorem keepRow_of_refused {r : CsvRow} (hbuilt : ∀ m ∈ s.sink.session, m.Built)
    (h : ¬ s.sink.Admits id (r.ts options)) : ∃ e, keepRow id options registry s r = .error e := by
  obtain ⟨hopened, _, hcolumns⟩ := openSession_built registry hbuilt r.date
  obtain ⟨e, herr⟩ := (append_cases id hopened (r.quote options)).2 (by
    rw [hcolumns, lastTime_eq]
    exact h)
  unfold keepRow
  dsimp only
  rw [herr]
  exact ⟨e, rfl⟩

/-- What is kept is counted. -/
theorem keepRow_counts {r : CsvRow} {s' : RowLoop} (h : keepRow id options registry s r = .ok s') :
    s'.sink.rowsRead = s.sink.rowsRead + 1 ∧ s'.sink.rowsSkipped = s.sink.rowsSkipped := by
  obtain ⟨session, _, h⟩ := Run.bind_eq_ok.mp h
  cases h
  exact ⟨rfl, rfl⟩

/-- Every line is counted. -/
theorem parseRow_counts {s' : RowLoop} (h : parseRow id options registry s line = .ok s') :
    s'.sink.rowsRead + s'.sink.rowsSkipped = s.sink.rowsRead + s.sink.rowsSkipped + 1 := by
  unfold parseRow at h
  dsimp only at h
  split_ifs at h
  case neg =>
    obtain ⟨hread, hskipped⟩ := keepRow_counts id options registry h
    rw [hread, hskipped]
    show s.sink.rowsRead + 1 + s.sink.rowsSkipped = _
    omega
  all_goals
    cases h
    rfl

/-- What the loop has come to, as the format has it. -/
structure Standing (day : Date) (previous : Option Timestamp) (s : RowLoop) : Prop where
  built : ∀ m ∈ s.sink.session, m.Built
  ofDay : s.sink.expected = day
  keptLast : s.previous = previous
  known : previous ≠ none → day.valid = true
  appended : ∀ t ∈ previous, s.sink.lastTime id = some (Int64.ofInt t) ∧ (Int64.ofInt t).toInt = t

variable {day : Date} {previous : Option Timestamp}

omit registry in
theorem Standing.kept {id : InstrumentId} {s' : RowLoop} {v : FieldValues} (hr : v.row.Ranges) (hv : v.Stored)
    (hbuilt : ∀ m ∈ s'.sink.session, m.Built) (hday : s'.sink.expected = v.stamp.date)
    (hprevious : s'.previous = some (v.stamp.instant options.utcOffsetSeconds.toInt))
    (hlast : s'.sink.lastTime id = some (Int64.ofInt (v.stamp.instant options.utcOffsetSeconds.toInt))) :
    Standing id v.stamp.date (some (v.stamp.instant options.utcOffsetSeconds.toInt)) s' where
  built := hbuilt
  ofDay := hday
  keptLast := hprevious
  known _ := by
    rw [← hv.stamp, ← hr.date_eq]
    exact hr.valid
  appended := by
    rintro _ ⟨⟩
    refine ⟨hlast, ?_⟩
    rw [← hv.stamp, ← hr.instant_eq]
    exact (hr.ts_bounds options).2.2

omit options registry in
theorem Standing.skip {id : InstrumentId} {s' : RowLoop} (h : Standing id day previous s)
    (hsink : s'.sink = s.skip.sink) (hprevious : s'.previous = s.previous) : Standing id day previous s' where
  built := by
    rw [hsink]
    exact h.built
  ofDay := by
    rw [hsink]
    exact h.ofDay
  keptLast := hprevious.trans h.keptLast
  known := h.known
  appended := by
    rw [hsink]
    exact h.appended

/-- A row that is not before the one kept last is admitted by the session. -/
theorem Standing.admits {id : InstrumentId} {options : GfdlLoadOptions} {v : FieldValues} {t : Timestamp}
    (h : Standing id day (some t) s) (hr : v.row.Ranges) (hv : v.Stored)
    (hle : t ≤ v.stamp.instant options.utcOffsetSeconds.toInt) :
    s.sink.Admits id (v.stamp.instant options.utcOffsetSeconds.toInt) := by
  obtain ⟨hlast, hexact⟩ := h.appended t rfl
  have hinstant := (hr.ts_bounds options).2.2
  rw [hr.instant_eq, hv.stamp] at hinstant
  intro back hback
  rw [hlast] at hback
  cases hback
  rw [Int64.le_iff_toInt_le, hexact, hinstant]
  exact hle

theorem readsLines_cons_of_due {lines : List Bytes} {v : FieldValues}
    (hdue : dueRow options day previous line = some v) :
    (∃ t, ReadsLines id options registry day previous s (line :: lines) t) ↔
      ∃ s', parseRow id options registry s line = .ok s' ∧ Kept id options registry v s.sink s'.sink ∧
        ∃ t, ReadsLines id options registry v.stamp.date (some (v.stamp.instant options.utcOffsetSeconds.toInt)) s'
          lines t := by
  constructor
  · rintro ⟨t, hreads⟩
    cases hreads with
    | kept due step keeps rest =>
        rw [hdue] at due
        cases due
        exact ⟨_, step, keeps, t, rest⟩
    | skipped none_due _ _ _ =>
        rw [hdue] at none_due
        cases none_due
  · rintro ⟨s', hstep, hkept, t, hrest⟩
    exact ⟨t, .kept hdue hstep hkept hrest⟩

theorem readsLines_cons_of_none {lines : List Bytes} (hdue : dueRow options day previous line = none) :
    (∃ t, ReadsLines id options registry day previous s (line :: lines) t) ↔
      ∃ s', parseRow id options registry s line = .ok s' ∧ Skipped s.sink s'.sink ∧
        ∃ t, ReadsLines id options registry day previous s' lines t := by
  constructor
  · rintro ⟨t, hreads⟩
    cases hreads with
    | kept due _ _ _ =>
        rw [hdue] at due
        cases due
    | skipped _ step skips rest => exact ⟨_, step, skips, t, rest⟩
  · rintro ⟨s', hstep, hskipped, t, hrest⟩
    exact ⟨t, .skipped hdue hstep hskipped hrest⟩

/-- The first row that is due, line by line. -/
theorem firstDue_cons (day : Date) (line : Bytes) (lines : List Bytes) :
    firstDue options day (line :: lines) = (dueRow options day none line).or (firstDue options day lines) := by
  unfold firstDue
  rw [List.findSome?_cons]
  cases dueRow options day none line <;> rfl

/-- **The loop over the lines** reads each as the format has it, if none is misread and the first row that is due is
    admitted. -/
theorem readsLines_iff {lines : List Bytes} (hclean : ∀ line ∈ lines, ∀ c ∈ line, lineEnd c = false)
    (h : Standing id day previous s) :
    (∃ t, ReadsLines id options registry day previous s lines t) ↔
      NoneMisread options day previous lines ∧
        (previous = none → ∀ v ∈ firstDue options day lines,
          s.sink.Admits id (v.stamp.instant options.utcOffsetSeconds.toInt)) := by
  induction lines generalizing day previous s with
  | nil => exact ⟨fun _ => ⟨trivial, fun _ _ => nofun⟩, fun _ => ⟨s, .nil⟩⟩
  | cons line lines ih =>
      have hends := hclean line (List.mem_cons_self ..)
      have hrest : ∀ line ∈ lines, ∀ c ∈ line, lineEnd c = false := fun line hline =>
        hclean line (List.mem_cons_of_mem _ hline)
      unfold NoneMisread
      rw [firstDue_cons]
      cases hstrict : dueRow options day previous line with
      | some v =>
          obtain ⟨hscanned, hranges, hstored⟩ := dueRow_scanned hstrict hends
          have hlate := (of_decide_eq_true (Option.filter_eq_some_iff.mp hstrict).2 : v.stamp.Due _ _ _).2.2
          have hts : v.row.ts options = v.stamp.instant options.utcOffsetSeconds.toInt := by
            rw [hranges.instant_eq, hstored.stamp]
          rw [← h.ofDay, ← h.keptLast] at hscanned
          obtain ⟨hstep, hday⟩ := parseRow_of_due id options registry hscanned
          have hdate : v.row.date = v.stamp.date := by rw [hranges.date_eq, hstored.stamp]
          dsimp only
          rw [readsLines_cons_of_due id options registry hstrict, hstep]
          by_cases hadmits : s.sink.Admits id (v.stamp.instant options.utcOffsetSeconds.toInt)
          · obtain ⟨s', hkeep, hkept, hprevious, hday', hbuilt, hlast⟩ :=
              keepRow_of_admits (s := s.onDay v.row.date) id options registry hranges hstored h.built hadmits
            have hnext := ih hrest (Standing.kept options hranges hstored hbuilt
              ((hday'.trans hday).trans hdate) hprevious hlast)
            rw [hkeep]
            constructor
            · rintro ⟨_, ⟨⟩, _, hreads⟩
              refine ⟨(hnext.mp hreads).1, ?_⟩
              rintro rfl v' hv'
              rw [hstrict, Option.some_or] at hv'
              cases hv'
              exact hadmits
            · rintro ⟨hgood, _⟩
              exact ⟨s', rfl, ⟨hkept.appended, hkept.stored, hkept.others, hkept.rowsRead, hkept.rowsSkipped⟩,
                hnext.mpr ⟨hgood, nofun⟩⟩
          · -- the session refuses the row, and the run ends there
            obtain ⟨e, herr⟩ := keepRow_of_refused (s := s.onDay v.row.date) (r := v.row) id options registry h.built
              (hts ▸ hadmits)
            rw [herr]
            constructor
            · rintro ⟨_, ⟨⟩, _⟩
            · rintro ⟨_, hfits⟩
              refine absurd ?_ hadmits
              cases previous with
              | none => exact hfits rfl v (by rw [hstrict, Option.some_or]; rfl)
              | some t => exact h.admits hranges hstored (hlate t rfl)
      | none =>
          dsimp only
          rw [readsLines_cons_of_none id options registry hstrict, ← scannedRow_eq_none hends]
          cases hscanned : scannedRow options day previous line with
          | some r =>
              -- a row is kept where the format has none
              rw [← h.ofDay, ← h.keptLast] at hscanned
              obtain ⟨hstep, _⟩ := parseRow_of_due id options registry hscanned
              constructor
              · rintro ⟨s', hok, hskipped, _⟩
                rw [hstep] at hok
                have hcount := (keepRow_counts id options registry hok).1
                rw [hskipped.rowsRead] at hcount
                exact absurd hcount.symm (Nat.succ_ne_self _)
              · rintro ⟨⟨hnone, _⟩, _⟩
                cases hnone
          | none =>
              rw [← h.ofDay, ← h.keptLast] at hscanned
              obtain ⟨s', hstep, hsink, hprevious⟩ := parseRow_of_not_due id options registry
                (fun hsome => h.ofDay ▸ h.known (h.keptLast ▸ hsome)) hscanned
              have hnext := ih hrest (h.skip hsink hprevious)
              have hskipped : Skipped s.sink s'.sink := by
                rw [hsink]
                exact ⟨rfl, rfl, rfl⟩
              have hfits : (previous = none → ∀ v ∈ firstDue options day lines,
                    s'.sink.Admits id (v.stamp.instant options.utcOffsetSeconds.toInt)) ↔
                  (previous = none → ∀ v ∈ (dueRow options day none line).or (firstDue options day lines),
                    s.sink.Admits id (v.stamp.instant options.utcOffsetSeconds.toInt)) := by
                refine forall_congr' (fun hnone => ?_)
                rw [← hnone, hstrict, Option.none_or, hsink]
                rfl
              rw [hstep, ← hfits]
              constructor
              · rintro ⟨_, ⟨⟩, _, hreads⟩
                obtain ⟨hgood, hadmits⟩ := hnext.mp hreads
                exact ⟨⟨rfl, hgood⟩, hadmits⟩
              · rintro ⟨⟨_, hgood⟩, hadmits⟩
                exact ⟨s', rfl, hskipped, hnext.mpr ⟨hgood, hadmits⟩⟩

/-- The lines are read one after the other. -/
theorem ReadsLines.run {lines : List Bytes} {t : RowLoop} (h : ReadsLines id options registry day previous s lines t) :
    lines.foldlM (parseRow id options registry) s = .ok t := by
  induction h with
  | nil => rfl
  | kept _ step _ _ ih => exact Run.foldlM_cons_ok.mpr ⟨_, step, ih⟩
  | skipped _ step _ _ ih => exact Run.foldlM_cons_ok.mpr ⟨_, step, ih⟩

/-- All lines are counted. -/
theorem parseRows_counts {lines : List Bytes} {t : RowLoop} (h : lines.foldlM (parseRow id options registry) s = .ok t) :
    t.sink.rowsRead + t.sink.rowsSkipped = s.sink.rowsRead + s.sink.rowsSkipped + lines.length := by
  induction lines generalizing s with
  | nil =>
      rw [Run.foldlM_nil_ok.mp h]
      rfl
  | cons line lines ih =>
      obtain ⟨m, hm, ht⟩ := Run.foldlM_cons_ok.mp h
      rw [ih ht, parseRow_counts id options registry hm, List.length_cons]
      omega

/-! ## Main result -/

/-- **The parser admits exactly the rows of the format**, with exactly their values, and counts every other line, if and
    only if the header ends at its newline, no line that lacks the format passes the scanners, and the first row that is
    due is not before what the session holds of the contract already. -/
theorem parser_admits_format_iff (data : Bytes) {sink : RowSink} (hsink : ∀ m ∈ sink.session, m.Built) :
    ReadsFormat id options registry data sink ↔
      HeaderEnds data ∧ NoneMisread options sink.expected none (rowLines data) ∧
        ∀ v ∈ firstDue options sink.expected (rowLines data),
          sink.Admits id (v.stamp.instant options.utcOffsetSeconds.toInt) := by
  have hstanding : Standing id sink.expected none { sink := sink } := ⟨hsink, rfl, rfl, nofun, nofun⟩
  have hclean : ∀ line ∈ rowLines data, ∀ c ∈ line, lineEnd c = false := fun _ hline => lineEnd_of_mem_rowLines hline
  have hloop := readsLines_iff id options registry hclean hstanding
  have hparse : ∀ s : RowLoop, parseCsvRows data id options registry sink = .ok (s.sink, s.rowDate) ↔
      ∃ t, (linesOf (skipHeader data)).foldlM (parseRow id options registry) { sink := sink } = .ok t ∧
        t.sink = s.sink ∧ t.rowDate = s.rowDate := by
    intro s
    unfold parseCsvRows
    rw [Run.bind_eq_ok]
    refine exists_congr (fun t => and_congr_right (fun _ => ?_))
    simp [pure, Except.pure]
  constructor
  · -- as many lines are counted by the parser as by the format, so the header swallowed none
    rintro ⟨s, hreads, hok⟩
    obtain ⟨t, hrun, hsame, _⟩ := (hparse s).mp hok
    have hall := parseRows_counts id options registry (hreads.run id options registry)
    have hread := parseRows_counts id options registry hrun
    rw [hsame] at hread
    obtain ⟨hgood, hfits⟩ := hloop.mp ⟨s, hreads⟩
    exact ⟨(rowLines_length_eq_iff data).mp (by omega), hgood, hfits rfl⟩
  · -- with a header that ends at its newline both go through the same lines
    rintro ⟨hheader, hgood, hfits⟩
    obtain ⟨s, hreads⟩ := hloop.mpr ⟨hgood, fun _ => hfits⟩
    have hlines : rowLines data = linesOf (skipHeader data) := by
      have hsplit := rowLines_eq data
      have hnone := (rowLines_length_eq_iff data).mpr hheader
      rw [hsplit, List.length_append, Nat.add_eq_right, List.length_eq_zero_iff] at hnone
      rw [hsplit, hnone, List.nil_append]
    refine ⟨s, hreads, (hparse s).mpr ⟨s, ?_, rfl, rfl⟩⟩
    rw [← hlines]
    exact hreads.run id options registry

end

/-- A day to read rows of. -/
def julyFirst : RowSink := { expected := ⟨20250701⟩ }

/-- A row in full behind a header, one whose date is garbled, and one that is cut off. -/
def damagedFile : Bytes :=
  text "Ticker,Date\nX,01/07/2025,09:15:00,1.4,1.35,69940,1.4,54730,0,256360\nX,0107/2025,09:15:01,1,1,1,1,1,1,1\nX,01/07/2"

/-- The full row is read as it is written, the others are counted. -/
theorem parser_admits_format_full : ReadsFormat 0 {} {} damagedFile julyFirst := by
  have hlines : ∃ full garbled cut v, rowLines damagedFile = [full, garbled, cut] ∧
      dueRow {} julyFirst.expected none full = some v ∧
      strictRow garbled = none ∧ strictRow cut = none ∧
      scannedRow {} v.stamp.date (some (v.stamp.instant 19800)) garbled = none ∧
      scannedRow {} v.stamp.date (some (v.stamp.instant 19800)) cut = none :=
    ⟨text "X,01/07/2025,09:15:00,1.4,1.35,69940,1.4,54730,0,256360", text "X,0107/2025,09:15:01,1,1,1,1,1,1,1",
      text "X,01/07/2", ⟨⟨1, 7, 2025, 9, 15, 0⟩, 140, 135, 69940, 140, 54730, 0, 256360⟩, by decide +kernel,
      by decide +kernel, by decide +kernel, by decide +kernel, by decide +kernel, by decide +kernel⟩
  obtain ⟨full, garbled, cut, v, hlines, hfull, hgarbled, hcut, hgarbled', hcut'⟩ := hlines
  have hends : ∀ line ∈ [full, garbled, cut], ∀ c ∈ line, lineEnd c = false := fun line hline =>
    lineEnd_of_mem_rowLines (hlines ▸ hline)
  have hnone : ∀ line, strictRow line = none →
      dueRow {} v.stamp.date (some (v.stamp.instant 19800)) line = none := by
    intro line hline
    unfold dueRow
    rw [hline]
    rfl
  have hsink : ∀ m ∈ julyFirst.session, m.Built := nofun
  refine (parser_admits_format_iff 0 {} {} damagedFile hsink).mpr ⟨by decide +kernel, ?_, fun _ _ => nofun⟩
  rw [hlines]
  unfold NoneMisread
  rw [hfull]
  show NoneMisread {} v.stamp.date (some (v.stamp.instant 19800)) [garbled, cut]
  unfold NoneMisread
  rw [hnone garbled hgarbled]
  refine ⟨(scannedRow_eq_none (hends garbled (by simp))).mp hgarbled', ?_⟩
  unfold NoneMisread
  rw [hnone cut hcut]
  exact ⟨(scannedRow_eq_none (hends cut (by simp))).mp hcut', trivial⟩

/-- A row whose last price is missing. -/
def noPrice : Bytes := text "X,01/07/2025,09:15:00,,1.35,69940,1.4,54730,0,256360"

/-- **A row without a price.** The line is not of the format, and is admitted at a price of nothing. -/
theorem missing_price_is_admitted :
    strictRow noPrice = none ∧
      (∃ s, parseRow 0 {} {} { sink := julyFirst } noPrice = .ok s ∧ s.sink.rowsRead = 1 ∧
        (s.sink.columns 0).last = [0]) ∧
      ¬ ReadsFormat 0 {} {} noPrice julyFirst := by
  have hnone : strictRow noPrice = none := by decide +kernel
  obtain ⟨s'', hstep', hpass⟩ :=
    Run.exists_of_succeeds (fun s : RowLoop => decide (s.sink.rowsRead = 1 ∧ (s.sink.columns 0).last = [0]))
      (parseRow 0 {} {} { sink := julyFirst } noPrice) (by decide +kernel)
  obtain ⟨hread, hlast⟩ := of_decide_eq_true hpass
  refine ⟨hnone, ⟨s'', hstep', hread, hlast⟩, ?_⟩
  rintro ⟨s, hreads, _⟩
  have hline : rowLines noPrice = [noPrice] := by decide +kernel
  rw [hline] at hreads
  obtain ⟨s', hstep, hskipped, _⟩ := (readsLines_cons_of_none 0 {} {} (by unfold dueRow; rw [hnone]; rfl)).mp ⟨s, hreads⟩
  rw [hstep] at hstep'
  cases hstep'
  rw [hskipped.rowsRead] at hread
  exact absurd hread (by decide)

end Volforge.Gfdl
