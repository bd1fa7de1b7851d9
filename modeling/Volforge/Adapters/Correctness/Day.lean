import Volforge.Adapters.Correctness.Rows
import Volforge.Store.Correctness.Registration

/-!
# `Adapters.Correctness.Day` — loading a day's directory

A day loads when the files of each contract come in the order of time; then every line of a file that is read is
counted, and the session holds the rows that were read. The counts miss the lines between a header that ends in a
carriage return alone and the next newline.

## Contents
- **Contracts.** A file's contract and its id in the registry.
- **Runs.** The loop over the files.
- **Lines.** What the header takes with it.
- **Main result.** `day_loads_soundly_iff`, and two files of one contract that overlap.
-/

namespace Volforge.Gfdl

open IdTable

/-! ## Contracts -/

theorem toByte_inj {a b : Right} (h : a.toByte = b.toByte) : a = b := by
  have hsmall : ∀ c : UInt8, 2 ≤ c → c ≠ 0 ∧ c ≠ 1 := by
    intro c hc
    constructor <;> rintro rfl <;> exact absurd hc (by decide)
  cases a with
  | Call =>
      cases b with
      | Call => rfl
      | Put => cases h
      | unnamed c hc => exact absurd h.symm (hsmall c hc).1
  | Put =>
      cases b with
      | Call => cases h
      | Put => rfl
      | unnamed c hc => exact absurd h.symm (hsmall c hc).2
  | unnamed c hc =>
      cases b with
      | Call => exact absurd h (hsmall c hc).1
      | Put => exact absurd h (hsmall c hc).2
      | unnamed c' hc' =>
          have heq : c = c' := h
          subst heq
          rfl

/-- The id of a symbol's contract. -/
def Listed (r : InstrumentRegistry) (sym : ParsedSymbol) (id : InstrumentId) : Prop :=
  ∃ u s, At r.underlyings u sym.underlying ∧ At r.specs id s ∧
    InstrumentRegistry.keyOf s = ⟨u, .Option, sym.expiry, sym.strike, sym.right.toByte⟩

theorem Listed.mono {r r' : InstrumentRegistry} {sym : ParsedSymbol} {id : InstrumentId} (h : Listed r sym id)
    (hext : r.Extends r') : Listed r' sym id := by
  obtain ⟨u, s, hu, hs, hkey⟩ := h
  exact ⟨u, s, hext.names u _ hu, hext.specs id s hs, hkey⟩

/-- Two symbols have one id exactly when they are the same contract. -/
theorem Listed.id_eq_iff {r : InstrumentRegistry} (hr : r.Sound) {sym sym' : ParsedSymbol} {id id' : InstrumentId}
    (h : Listed r sym id) (h' : Listed r sym' id') : sym = sym' ↔ id = id' := by
  obtain ⟨u, s, hu, hs, hkey⟩ := h
  obtain ⟨u', s', hu', hs', hkey'⟩ := h'
  constructor
  · rintro rfl
    have hsame : u = u' := hr.names.unique hu hu' rfl
    subst hsame
    exact hr.keys.unique hs hs' (hkey.trans hkey'.symm)
  · rintro rfl
    rw [at_inj hs hs', hkey', Key.mk.injEq] at hkey
    obtain ⟨rfl, _, hexpiry, hstrike, hright⟩ := hkey
    have hname : sym.underlying = sym'.underlying := at_inj hu hu'
    obtain ⟨underlying, expiry, strike, right⟩ := sym
    obtain ⟨underlying', expiry', strike', right'⟩ := sym'
    simp only at hname hexpiry hstrike hright
    rw [hname, hexpiry, hstrike, toByte_inj hright]

/-- Registering a file's contract. -/
theorem listed_of_add {r : InstrumentRegistry} (hr : r.Sound) (sym : ParsedSymbol) (options : GfdlLoadOptions) :
    let interned := r.internUnderlying sym.underlying
    let added := interned.1.add (specOf sym options interned.2)
    added.1.Sound ∧ r.Extends added.1 ∧ Listed added.1 sym added.2 := by
  obtain ⟨hsound, hext, hname, _⟩ := InstrumentRegistry.internUnderlying_spec hr sym.underlying
  obtain ⟨hsound', hext', hnames, s, hs, hkey, _⟩ :=
    InstrumentRegistry.add_spec hsound (specOf sym options (r.internUnderlying sym.underlying).2)
  refine ⟨hsound', hext.trans hext', (r.internUnderlying sym.underlying).2, s, ?_, hs, hkey⟩
  rw [hnames]
  exact hname

/-! ## Runs -/

/-- What is read of a file: its contract and its contents. -/
def readSymbol (options : GfdlLoadOptions) (file : Bytes × Bytes) : Option (ParsedSymbol × Bytes) :=
  match parseGfdlSymbol file.1 with
  | none => none
  | some sym =>
      if !options.onlyUnderlying.isEmpty && sym.underlying ≠ options.onlyUnderlying then none
      else if file.2.isEmpty then none
      else some (sym, file.2)

/-- The files that are read, in the order in which they are. -/
def filesRead (options : GfdlLoadOptions) (directory : List (Bytes × Bytes)) : List (ParsedSymbol × Bytes) :=
  (sortByName (directory.filter (fun file => isCsv file.1))).filterMap (readSymbol options)

/-- The lines that are gone through. -/
def linesLeft (files : List (ParsedSymbol × Bytes)) : List Bytes := files.flatMap (fun f => linesOf (skipHeader f.2))

/-- The observations the files give their contracts. -/
def dayPrints (d : Date) (options : GfdlLoadOptions) (files : List (ParsedSymbol × Bytes)) :
    List (ParsedSymbol × Quote) :=
  files.flatMap (fun f => printsOf f.1 options (fileRows d options f.2))

/-- An observation of a contract, under its id. -/
def Names (r : InstrumentRegistry) (x : ParsedSymbol × Quote) (y : InstrumentId × Quote) : Prop :=
  Listed r x.1 y.1 ∧ x.2 = y.2

theorem ordered_iff {r : InstrumentRegistry} (hr : r.Sound) {hist : List (ParsedSymbol × Quote)}
    {ids : List (InstrumentId × Quote)} (h : List.Forall₂ (Names r) hist ids) : Ordered hist ↔ Ordered ids := by
  induction h with
  | nil => exact ⟨fun _ => .nil, fun _ => .nil⟩
  | @cons x y hist ids hxy hrest ih =>
      unfold Ordered at ih ⊢
      rw [List.pairwise_cons, List.pairwise_cons, ih]
      refine and_congr_left (fun _ => ?_)
      constructor
      · intro hall y' hy' hid
        obtain ⟨x', hx', hxy'⟩ := exists_of_mem_right hrest hy'
        rw [← hxy.2, ← hxy'.2]
        exact hall x' hx' ((hxy.1.id_eq_iff hr hxy'.1).mpr hid)
      · intro hall x' hx' hsym
        obtain ⟨y', hy', hxy'⟩ := exists_of_mem_left hrest hx'
        rw [hxy.2, hxy'.2]
        exact hall y' hy' ((hxy.1.id_eq_iff hr hxy'.1).mp hsym)

theorem names_prints {r : InstrumentRegistry} {sym : ParsedSymbol} {id : InstrumentId} (h : Listed r sym id)
    (options : GfdlLoadOptions) (rows : List CsvRow) :
    List.Forall₂ (Names r) (printsOf sym options rows) (printsOf id options rows) := by
  unfold printsOf
  exact List.forall₂_map_left_iff.mpr (List.forall₂_map_right_iff.mpr (List.forall₂_same.mpr fun _ _ => ⟨h, rfl⟩))

/-- A file that is read is counted; besides that only the warnings change. -/
theorem countFile_eq (s : DayLoop) (name : Bytes) (rowDate : Date) : ∃ warnings,
    s.countFile name rowDate =
      { s with out := { s.out with filesRead := s.out.filesRead + 1, warnings := warnings } } := by
  unfold DayLoop.countFile
  dsimp only
  split_ifs
  · exact ⟨_, rfl⟩
  · exact ⟨_, rfl⟩

/-- What the loop over the files keeps: the history under contracts and under ids. -/
structure Loading (d : Date) (options : GfdlLoadOptions) (s : DayLoop) (hist : List (ParsedSymbol × Quote))
    (ids : List (InstrumentId × Quote)) : Prop where
  sound : s.registry.Sound
  stored : Stored d options s.sink ids
  ordered : Ordered ids
  names : List.Forall₂ (Names s.registry) hist ids

/-- The step lemma of `load_gfdl_day`: a file that is read puts its rows into the session. -/
theorem loadFile_of_read {d : Date} {options : GfdlLoadOptions} {s : DayLoop} {hist : List (ParsedSymbol × Quote)}
    {ids : List (InstrumentId × Quote)} {file : Bytes × Bytes} {f : ParsedSymbol × Bytes} {more : List Bytes}
    (h : Loading d options s hist ids) (hread : readSymbol options file = some f)
    (hday : d = dayDate s.expected (linesOf (skipHeader f.2) ++ more)) :
    Run.Ends (fun s' => ∃ ids', Loading d options s' (hist ++ printsOf f.1 options (fileRows d options f.2)) ids' ∧
        d = dayDate s'.expected more ∧ s'.out.filesRead = s.out.filesRead + 1 ∧
        s'.out.rowsRead + s'.out.rowsSkipped =
          s.out.rowsRead + s.out.rowsSkipped + (linesOf (skipHeader f.2)).length)
      (¬ Ordered (hist ++ printsOf f.1 options (fileRows d options f.2))) (loadFile options s file) := by
  obtain ⟨name, buffer⟩ := file
  unfold readSymbol at hread
  cases hsym : parseGfdlSymbol name with
  | none =>
      rw [hsym] at hread
      cases hread
  | some sym =>
      rw [hsym] at hread
      dsimp only at hread
      split_ifs at hread with hother hempty
      cases hread
      obtain ⟨hsound, hext, hlisted⟩ := listed_of_add h.sound sym options
      unfold loadFile
      dsimp only
      rw [hsym]
      dsimp only
      rw [if_neg hother, if_neg hempty]
      generalize hintern : s.registry.internUnderlying sym.underlying = interned at hsound hext hlisted ⊢
      obtain ⟨registry, underlying⟩ := interned
      dsimp only at hsound hext hlisted ⊢
      generalize registry.add (specOf sym options underlying) = added at hsound hext hlisted ⊢
      obtain ⟨registry, id⟩ := added
      dsimp only at hsound hext hlisted ⊢
      -- the registry grew, so what was named stays named, and the file's contract is named by `id`
      have hnames : ∀ rows, List.Forall₂ (Names registry) (hist ++ printsOf sym options rows)
          (ids ++ printsOf id options rows) := by
        intro rows
        have hold : List.Forall₂ (Names registry) hist ids := h.names.imp (fun x y hxy => ⟨hxy.1.mono hext, hxy.2⟩)
        exact List.rel_append hold (names_prints hlisted options rows)
      have hparse := parseCsvRows_ends id registry h.stored h.ordered hday
      refine (hparse.mono (fun x hx => hx) (fun hbad hord => hbad ((ordered_iff hsound (hnames _)).mp hord))).bind ?_
      rintro ⟨sink, rowDate⟩ ⟨hstored, hord, hday', hcount⟩
      obtain ⟨warnings, hcountFile⟩ := countFile_eq (({ s with
        registry := registry
        out := { s.out with underlying := underlying }
        expiries := InstrumentRegistry.insertDate sym.expiry s.expiries } : DayLoop).drain sink) name rowDate
      refine ⟨_, ⟨?_, ?_, hord, ?_⟩, ?_, ?_, ?_⟩
      · rw [hcountFile]
        exact hsound
      · rw [hcountFile]
        exact hstored
      · rw [hcountFile]
        exact hnames _
      · rw [hcountFile]
        exact hday'
      · rw [hcountFile]
        rfl
      · rw [hcountFile]
        exact hcount

/-- A file that is not read changes neither the session nor the registry. -/
theorem loadFile_of_skip {options : GfdlLoadOptions} {s : DayLoop} {file : Bytes × Bytes}
    (hread : readSymbol options file = none) : ∃ s', loadFile options s file = .ok s' ∧ s'.sink = s.sink ∧
      s'.registry = s.registry ∧ s'.out.filesRead = s.out.filesRead := by
  obtain ⟨name, buffer⟩ := file
  unfold readSymbol at hread
  unfold loadFile
  dsimp only at hread ⊢
  cases hsym : parseGfdlSymbol name with
  | none => exact ⟨_, rfl, rfl, rfl, rfl⟩
  | some sym =>
      rw [hsym] at hread
      dsimp only at hread ⊢
      split_ifs at hread with hother hempty
      · rw [if_pos hother]
        exact ⟨_, rfl, rfl, rfl, rfl⟩
      · rw [if_neg hother, if_pos hempty]
        exact ⟨_, rfl, rfl, rfl, rfl⟩

theorem loading_new {registry : InstrumentRegistry} (hreg : registry.Sound) (d : Date) (options : GfdlLoadOptions)
    (expected : Date) : Loading d options { registry := registry, expected := expected } [] [] where
  sound := hreg
  stored := ⟨rfl, fun _ => rfl, nofun, by simp⟩
  ordered := .nil
  names := .nil

/-- What the loop over the files keeps: the history so far, and what the files left add to it. -/
def ReadingOn (d : Date) (options : GfdlLoadOptions) (read : List (ParsedSymbol × Bytes)) (rest : List (Bytes × Bytes))
    (s : DayLoop) : Prop :=
  ∃ hist ids, Loading d options s hist ids ∧
    hist ++ dayPrints d options (rest.filterMap (readSymbol options)) = dayPrints d options read ∧
    d = dayDate s.expected (linesLeft (rest.filterMap (readSymbol options))) ∧
    s.out.filesRead + (rest.filterMap (readSymbol options)).length = read.length ∧
    s.out.rowsRead + s.out.rowsSkipped + (linesLeft (rest.filterMap (readSymbol options))).length =
      (linesLeft read).length

/-- The step lemma of the loop over the files. -/
theorem loadFile_readingOn {d : Date} {options : GfdlLoadOptions} {read : List (ParsedSymbol × Bytes)}
    {rest : List (Bytes × Bytes)} {file : Bytes × Bytes} {s : DayLoop} (h : ReadingOn d options read (file :: rest) s) :
    Run.Ends (ReadingOn d options read rest) (¬ Ordered (dayPrints d options read)) (loadFile options s file) := by
  obtain ⟨hist, ids, hloading, hhist, hday, hfiles, hrows⟩ := h
  cases hsym : readSymbol options file with
  | none =>
      obtain ⟨s', hstep, hsink, hregistry, hcount⟩ := loadFile_of_skip (s := s) hsym
      rw [List.filterMap_cons_none hsym] at hhist hday hfiles hrows
      rw [hstep]
      refine ⟨hist, ids, ⟨?_, ?_, hloading.ordered, ?_⟩, hhist, ?_, ?_, ?_⟩
      · rw [hregistry]
        exact hloading.sound
      · rw [hsink]
        exact hloading.stored
      · rw [hregistry]
        exact hloading.names
      · rw [show s'.expected = s.expected from congrArg RowSink.expected hsink]
        exact hday
      · rw [hcount]
        exact hfiles
      · rw [show s'.out.rowsRead = s.out.rowsRead from congrArg RowSink.rowsRead hsink,
          show s'.out.rowsSkipped = s.out.rowsSkipped from congrArg RowSink.rowsSkipped hsink]
        exact hrows
  | some f =>
      rw [List.filterMap_cons_some hsym] at hhist hday hfiles hrows
      have hlines : linesLeft (f :: rest.filterMap (readSymbol options)) =
          linesOf (skipHeader f.2) ++ linesLeft (rest.filterMap (readSymbol options)) := List.flatMap_cons ..
      have hprints : dayPrints d options (f :: rest.filterMap (readSymbol options)) =
          printsOf f.1 options (fileRows d options f.2) ++ dayPrints d options (rest.filterMap (readSymbol options)) :=
        List.flatMap_cons ..
      rw [hlines] at hday hrows
      rw [hprints, ← List.append_assoc] at hhist
      rw [List.length_cons] at hfiles
      rw [List.length_append] at hrows
      refine (loadFile_of_read hloading hsym hday).mono ?_ ?_
      · rintro s' ⟨ids', hloading', hday', hcount, hcounts⟩
        refine ⟨_, ids', hloading', hhist, hday', ?_, ?_⟩
        · rw [hcount]
          omega
        · rw [hcounts]
          omega
      · -- out of order already
        intro hbad hall
        rw [← hhist] at hall
        exact hbad (List.pairwise_append.mp hall).1

/-- **The loop over the files**: the rows of the files that are read go into the session, and it fails exactly when the
    rows of a contract are out of order. -/
theorem loadFiles_ends {registry : InstrumentRegistry} (hreg : registry.Sound) {d expected : Date}
    {options : GfdlLoadOptions} {files : List (Bytes × Bytes)} {read : List (ParsedSymbol × Bytes)}
    (hread : files.filterMap (readSymbol options) = read) (hday : d = dayDate expected (linesLeft read)) :
    Run.Ends (fun s => ∃ ids, Loading d options s (dayPrints d options read) ids ∧ s.out.filesRead = read.length ∧
        s.out.rowsRead + s.out.rowsSkipped = (linesLeft read).length)
      (¬ Ordered (dayPrints d options read))
      (files.foldlM (loadFile options) { registry := registry, expected := expected }) := by
  subst hread
  have hloop : Run.Ends (ReadingOn d options (files.filterMap (readSymbol options)) []) _
      (files.foldlM (loadFile options) { registry := registry, expected := expected }) :=
    Run.foldlM_ends (ReadingOn d options (files.filterMap (readSymbol options))) (fun s file rest hs => loadFile_readingOn hs)
      ⟨[], [], loading_new hreg d options expected, rfl, hday, Nat.zero_add _, Nat.zero_add _⟩
  refine hloop.mono ?_ (fun hbad => hbad)
  rintro s ⟨hist, ids, hloading, hhist, _, hfiles, hrows⟩
  have hhist : hist = dayPrints d options (files.filterMap (readSymbol options)) := by simpa [dayPrints] using hhist
  subst hhist
  exact ⟨ids, hloading, by simpa using hfiles, by simpa [linesLeft] using hrows⟩

/-! ## Lines -/

theorem linesFrom_append (line p q : Bytes) {c : UInt8} (hc : lineEnd c = true) :
    linesFrom line (p ++ c :: q) = linesFrom line p ++ linesOf q := by
  induction p generalizing line with
  | nil =>
      rw [List.nil_append]
      show (if lineEnd c then (if line.isEmpty then linesFrom [] q else line :: linesFrom [] q) else _) =
        (if line.isEmpty then [] else [line]) ++ linesFrom [] q
      rw [if_pos hc]
      by_cases hempty : line.isEmpty = true
      · rw [if_pos hempty, if_pos hempty]
        rfl
      · rw [if_neg hempty, if_neg hempty]
        rfl
  | cons b p ih =>
      rw [List.cons_append, linesFrom, linesFrom]
      by_cases hb : lineEnd b = true
      · rw [if_pos hb, if_pos hb]
        by_cases hempty : line.isEmpty = true
        · rw [if_pos hempty, if_pos hempty, ih]
        · rw [if_neg hempty, if_neg hempty, ih, List.cons_append]
      · rw [if_neg hb, if_neg hb, ih]

/-- The line that is begun is in front. -/
theorem linesFrom_ne_nil {line : Bytes} (hline : line ≠ []) (p : Bytes) : linesFrom line p ≠ [] := by
  induction p generalizing line with
  | nil =>
      unfold linesFrom
      rw [if_neg (by simpa using hline)]
      nofun
  | cons b p ih =>
      unfold linesFrom
      split_ifs with hb hempty
      · exact absurd (by simpa using hempty) hline
      · nofun
      · exact ih (by simp)

/-- The lines that are no header. -/
def rowLines (data : Bytes) : List Bytes := if hasHeader data then (linesOf data).tail else linesOf data

/-- Nothing but the header stands before the first newline. -/
def HeaderEnds (data : Bytes) : Prop :=
  hasHeader data = true → (linesOf (data.takeWhile (fun c => c ≠ chr '\n'))).tail = []

instance (data : Bytes) : Decidable (HeaderEnds data) := by unfold HeaderEnds; infer_instance

/-- Skipping the header leaves out the lines between it and the first newline. -/
theorem rowLines_eq (data : Bytes) : rowLines data =
    (if hasHeader data then (linesOf (data.takeWhile (fun c => c ≠ chr '\n'))).tail else []) ++
      linesOf (skipHeader data) := by
  unfold rowLines skipHeader
  by_cases hheader : hasHeader data = true
  · rw [if_pos hheader, if_pos hheader, if_pos hheader]
    -- the text up to the first newline begins a line
    have hfront : linesOf (data.takeWhile (fun c => c ≠ chr '\n')) ≠ [] := by
      obtain ⟨_, htake⟩ := (Bool.and_eq_true_iff.mp hheader)
      match data, of_decide_eq_true htake with
      | c :: data, htake =>
          have hc : c = chr 'T' := by
            have hhead := congrArg List.head? htake
            simpa [text] using hhead
          subst hc
          rw [List.takeWhile_cons_of_pos (by decide)]
          unfold linesOf linesFrom
          rw [if_neg (by decide)]
          exact linesFrom_ne_nil (by simp) _
    have hsplit := List.takeWhile_append_dropWhile (p := fun c => c ≠ chr '\n') (l := data)
    cases hrest : data.dropWhile (fun c => c ≠ chr '\n') with
    | nil =>
        rw [hrest, List.append_nil] at hsplit
        rw [hsplit]
        simp [linesOf, linesFrom]
    | cons c q =>
        have hc : c = chr '\n' := by
          have hhead := List.head?_dropWhile_not (fun c => decide (c ≠ chr '\n')) data
          rw [hrest] at hhead
          simpa using hhead
        rw [hrest] at hsplit
        conv_lhs => rw [← hsplit]
        unfold linesOf at hfront ⊢
        rw [linesFrom_append _ _ _ (by rw [hc]; decide), List.tail_append_of_ne_nil hfront]
        rfl
  · rw [if_neg hheader, if_neg hheader, if_neg hheader, List.nil_append]

/-- No line goes with the header exactly when it ends at its newline. -/
theorem rowLines_length_eq_iff (data : Bytes) :
    (rowLines data).length = (linesOf (skipHeader data)).length ↔ HeaderEnds data := by
  rw [rowLines_eq, List.length_append, HeaderEnds]
  by_cases hheader : hasHeader data = true
  · rw [if_pos hheader, Nat.add_eq_right, List.length_eq_zero_iff, forall_prop_of_true hheader]
  · simp [hheader]

/-! ## Order of time -/

/-- The rows of the day in one file, those that come too late in it included. -/
def dayRows (d : Date) (data : Bytes) : List CsvRow := (linesOf (skipHeader data)).filterMap (rowOf d)

/-- The rows that are kept do not go back in time. -/
theorem rowsFrom_ascending (d : Date) (options : GfdlLoadOptions) (previous : Option Timestamp) (lines : List Bytes) :
    (rowsFrom d options previous lines).Pairwise (fun a b => a.ts options ≤ b.ts options) ∧
      ∀ t ∈ previous, ∀ r ∈ rowsFrom d options previous lines, t ≤ r.ts options := by
  induction lines generalizing previous with
  | nil => exact ⟨.nil, fun _ _ _ hr => absurd hr List.not_mem_nil⟩
  | cons line lines ih =>
      unfold rowsFrom
      cases rowOf d line with
      | none => exact ih previous
      | some r =>
          dsimp only
          split_ifs with hlate
          · exact ih previous
          · obtain ⟨hpairs, hall⟩ := ih (some (r.ts options))
            have hfrom := hall (r.ts options) rfl
            refine ⟨List.pairwise_cons.mpr ⟨hfrom, hpairs⟩, ?_⟩
            intro t ht r' hr'
            have hle : t ≤ r.ts options := by
              rw [Option.mem_def.mp ht] at hlate
              exact not_lt.mp (by simpa using hlate)
            rcases List.mem_cons.mp hr' with rfl | hr'
            · exact hle
            · exact le_trans hle (hfrom r' hr')

/-- Every row of the day is kept, or is not later than one that is or than the one before. -/
theorem rowsFrom_covers (d : Date) (options : GfdlLoadOptions) (previous : Option Timestamp) (lines : List Bytes)
    {r : CsvRow} (hr : r ∈ lines.filterMap (rowOf d)) :
    (∃ t ∈ previous, r.ts options ≤ t) ∨ ∃ r' ∈ rowsFrom d options previous lines, r.ts options ≤ r'.ts options := by
  induction lines generalizing previous with
  | nil => exact absurd hr List.not_mem_nil
  | cons line lines ih =>
      unfold rowsFrom
      cases hrow : rowOf d line with
      | none =>
          rw [List.filterMap_cons_none hrow] at hr
          exact ih previous hr
      | some first =>
          rw [List.filterMap_cons_some hrow] at hr
          dsimp only
          split_ifs with hlate
          · -- skipped, being before the row before
            rcases List.mem_cons.mp hr with rfl | hr
            · obtain ⟨t, ht, hlt⟩ := (Option.any_eq_true _ _).mp hlate
              exact .inl ⟨t, ht, le_of_lt (by simpa using hlt)⟩
            · exact ih previous hr
          · rcases List.mem_cons.mp hr with rfl | hr
            · exact .inr ⟨r, List.mem_cons_self, le_refl _⟩
            · rcases ih (some (first.ts options)) hr with ⟨t, ht, hle⟩ | ⟨r', hr', hle⟩
              · cases ht
                exact .inr ⟨first, List.mem_cons_self, hle⟩
              · exact .inr ⟨r', List.mem_cons_of_mem _ hr', hle⟩

/-- The first row of the day is kept. -/
theorem rowsFrom_head (d : Date) (options : GfdlLoadOptions) (lines : List Bytes) :
    (rowsFrom d options none lines).head? = (lines.filterMap (rowOf d)).head? := by
  induction lines with
  | nil => rfl
  | cons line lines ih =>
      unfold rowsFrom
      cases hrow : rowOf d line with
      | none =>
          rw [List.filterMap_cons_none hrow]
          exact ih
      | some r =>
          rw [List.filterMap_cons_some hrow]
          rfl

theorem rowsFrom_subset (d : Date) (options : GfdlLoadOptions) (previous : Option Timestamp) (lines : List Bytes) :
    rowsFrom d options previous lines ⊆ lines.filterMap (rowOf d) := by
  induction lines generalizing previous with
  | nil => exact List.Subset.refl _
  | cons line lines ih =>
      unfold rowsFrom
      cases hrow : rowOf d line with
      | none =>
          rw [List.filterMap_cons_none hrow]
          exact ih previous
      | some r =>
          rw [List.filterMap_cons_some hrow]
          dsimp only
          split_ifs with hlate
          · exact List.subset_cons_of_subset r (ih previous)
          · exact List.cons_subset_cons r (ih _)

/-- What one file keeps is before what another keeps when no row of the one is later than the first row of the
    other. -/
theorem fileRows_before_iff (d : Date) (options : GfdlLoadOptions) (data data' : Bytes) :
    (∀ r ∈ fileRows d options data, ∀ r' ∈ fileRows d options data', r.ts options ≤ r'.ts options) ↔
      ∀ r ∈ dayRows d data, ∀ r' ∈ (dayRows d data').head?, r.ts options ≤ r'.ts options := by
  have hhead : (fileRows d options data').head? = (dayRows d data').head? := rowsFrom_head d options _
  constructor
  · intro hall r hr r' hr'
    rw [← hhead] at hr'
    rcases rowsFrom_covers d options none _ hr with ⟨t, ht, _⟩ | ⟨kept, hkept, hle⟩
    · cases ht
    · exact le_trans hle (hall kept hkept r' (List.mem_of_mem_head? hr'))
  · intro hall r hr r' hr'
    have hfrom := hall r (rowsFrom_subset d options none _ hr)
    rw [← hhead] at hfrom
    have hpairs : (fileRows d options data').Pairwise (fun a b => a.ts options ≤ b.ts options) :=
      (rowsFrom_ascending d options none _).1
    cases hrows : fileRows d options data' with
    | nil =>
        rw [hrows] at hr'
        cases hr'
    | cons first rest =>
        rw [hrows] at hfrom hr' hpairs
        have hle : r.ts options ≤ first.ts options := hfrom first rfl
        rcases List.mem_cons.mp hr' with rfl | hr'
        · exact hle
        · exact le_trans hle ((List.pairwise_cons.mp hpairs).1 r' hr')

/-- No row of the day in a file is later than the first one in a later file of the same contract. -/
def InTimeOrder (d : Date) (options : GfdlLoadOptions) (files : List (ParsedSymbol × Bytes)) : Prop :=
  files.Pairwise (fun f g => f.1 = g.1 →
    ∀ r ∈ dayRows d f.2, ∀ r' ∈ (dayRows d g.2).head?, r.ts options ≤ r'.ts options)

instance (d : Date) (options : GfdlLoadOptions) (files : List (ParsedSymbol × Bytes)) :
    Decidable (InTimeOrder d options files) :=
  inferInstanceAs (Decidable (files.Pairwise fun f g => f.1 = g.1 →
    ∀ r ∈ dayRows d f.2, ∀ r' ∈ (dayRows d g.2).head?, r.ts options ≤ r'.ts options))

/-- The observations of the day are in order when the files are. -/
theorem ordered_dayPrints_iff (d : Date) (options : GfdlLoadOptions) (files : List (ParsedSymbol × Bytes)) :
    Ordered (dayPrints d options files) ↔ InTimeOrder d options files := by
  unfold Ordered dayPrints InTimeOrder
  rw [List.pairwise_flatMap]
  have hwithin : ∀ f ∈ files, (printsOf f.1 options (fileRows d options f.2)).Pairwise
      (fun a b => a.1 = b.1 → a.2.ts ≤ b.2.ts) := by
    intro f _
    unfold printsOf
    rw [List.pairwise_map]
    refine List.Pairwise.imp ?_ (rowsFrom_ascending d options none (linesOf (skipHeader f.2))).1
    intro a b hle _
    exact hle
  rw [and_iff_right hwithin]
  refine List.Pairwise.iff (fun f g => ?_)
  rw [← fileRows_before_iff]
  unfold printsOf
  simp only [List.mem_map]
  constructor
  · intro hall hsym r hr r' hr'
    exact hall _ ⟨r, hr, rfl⟩ _ ⟨r', hr', rfl⟩ hsym
  · rintro hall _ ⟨r, hr, rfl⟩ _ ⟨r', hr', rfl⟩ hsym
    exact hall hsym r hr r' hr'

/-! ## Main result -/

/-- The lines of the files that are no header. -/
def linesCarried (files : List (ParsedSymbol × Bytes)) : Nat := (files.map (fun f => (rowLines f.2).length)).sum

/-- The lines of every file are accounted for, and the session is the rows that were read. -/
structure LoadsSoundly (options : GfdlLoadOptions) (files : List (ParsedSymbol × Bytes)) (day : GfdlDay) : Prop where
  filesRead : day.filesRead = files.length
  counted : day.rowsRead + day.rowsSkipped = linesCarried files
  empty : day.session = none → day.rowsRead = 0
  total : ∀ s, day.session = some s → s.total = day.rowsRead ∧
    (s.instruments.map (fun id => (s.quotes id).size)).sum = day.rowsRead
  ascending : ∀ s, day.session = some s → ∀ id, (s.quotes id).Ascending
  within : ∀ s, day.session = some s → ∀ id, ∀ t ∈ (s.quotes id).ts,
    timestampOf s.date 0 options.utcOffsetSeconds.toInt ≤ t.toInt ∧
      t.toInt < timestampOf s.date 86400 options.utcOffsetSeconds.toInt

/-- No line is left out exactly when the headers end at their newlines. -/
theorem linesCarried_eq_iff (files : List (ParsedSymbol × Bytes)) :
    (linesLeft files).length = linesCarried files ↔ ∀ f ∈ files, HeaderEnds f.2 := by
  have hle : ∀ rest : List (ParsedSymbol × Bytes), (linesLeft rest).length ≤ linesCarried rest ∧
      ((linesLeft rest).length = linesCarried rest ↔ ∀ f ∈ rest, HeaderEnds f.2) := by
    intro rest
    induction rest with
    | nil => exact ⟨le_refl _, fun _ => nofun, fun _ => rfl⟩
    | cons f rest ih =>
        obtain ⟨hle, hiff⟩ := ih
        have hleft : (linesLeft (f :: rest)).length = (linesOf (skipHeader f.2)).length + (linesLeft rest).length := by
          rw [show linesLeft (f :: rest) = linesOf (skipHeader f.2) ++ linesLeft rest from List.flatMap_cons ..,
            List.length_append]
        have hcarried : linesCarried (f :: rest) = (rowLines f.2).length + linesCarried rest := List.sum_cons
        have hends := rowLines_length_eq_iff f.2
        have hlines : (linesOf (skipHeader f.2)).length ≤ (rowLines f.2).length := by
          rw [rowLines_eq, List.length_append]
          exact Nat.le_add_left _ _
        rw [hleft, hcarried, List.forall_mem_cons, ← hends, ← hiff]
        omega
  exact (hle files).2

theorem sum_quotes {s : MemorySessionData} (h : s.Built) :
    (s.instruments.map (fun id => (s.quotes id).size)).sum = s.total := by
  have hperm := (h.instruments.map (fun id => (s.quotes id).size)).sum_eq
  rw [hperm, h.total, List.map_map]
  congr 1
  refine List.map_congr_left (fun x hx => ?_)
  show (s.quotes x.1).size = x.2.size
  rw [h.quotes_of_mem hx]

/-- What a day whose rows are all stored comes to. -/
theorem loads_soundly {d : Date} {options : GfdlLoadOptions} {files : List (ParsedSymbol × Bytes)} {s : DayLoop}
    {hist : List (ParsedSymbol × Quote)} {ids : List (InstrumentId × Quote)} (h : Loading d options s hist ids)
    (hfiles : s.out.filesRead = files.length) (hcounted : s.out.rowsRead + s.out.rowsSkipped = linesCarried files)
    (registry : InstrumentRegistry) (expiries : List Date) :
    LoadsSoundly options files
      { s.out with expiries := expiries, session := closeSession registry s.out.session } := by
  have hstored := h.stored
  cases hsession : s.out.session with
  | none =>
      have hread : s.out.rowsRead = 0 := by
        have hread : s.out.rowsRead = ids.length := hstored.read
        rw [hread, hstored.fresh hsession]
        rfl
      exact ⟨hfiles, hcounted, fun _ => hread, nofun, nofun, nofun⟩
  | some session =>
      obtain ⟨hholds, hdate, _, _⟩ := hstored.holds session hsession
      have htotal : session.total = s.out.rowsRead := hholds.total.trans hstored.read.symm
      refine ⟨hfiles, hcounted, nofun, ?_, ?_, ?_⟩
      · rintro _ ⟨⟩
        exact ⟨htotal, (sum_quotes hholds.built).trans htotal⟩
      · rintro _ ⟨⟩ id
        rcases hholds.built.quotes_cases id with hkept | hempty
        · exact hkept.ascending
        · show (session.quotes id).Ascending
          rw [hempty]
          exact .nil
      · rintro _ ⟨⟩ id t ht
        -- each time is that of a row of the day
        have ht : t ∈ (session.quotes id).ts := ht
        rw [hholds.times] at ht
        obtain ⟨x, hx, rfl⟩ := List.mem_map.mp ht
        obtain ⟨r, hr, hrd, hquote⟩ := hstored.rows x (List.mem_of_mem_filter hx)
        rw [hstored.exact (List.mem_of_mem_filter hx), hquote]
        show timestampOf session.date 0 _ ≤ r.ts options ∧ r.ts options < timestampOf session.date 86400 _
        rw [hdate, ← hrd]
        exact ⟨(hr.ts_bounds options).1, (hr.ts_bounds options).2.1⟩

/-- **A directory loads soundly exactly when** no header swallows a line and the files of a contract do not overlap. -/
theorem day_loads_soundly_iff {registry : InstrumentRegistry} (hreg : registry.Reachable)
    (directory : List (Bytes × Bytes)) (options : GfdlLoadOptions) :
    let files := filesRead options directory
    (∃ registry' day, loadGfdlDay registry directory options = .ok (registry', day) ∧
        LoadsSoundly options files day) ↔
      (∀ f ∈ files, HeaderEnds f.2) ∧
        InTimeOrder (dayDate options.expectedDate (linesLeft files)) options files := by
  intro files
  have hends := loadFiles_ends hreg.sound (rfl : _ = files) (rfl : _ = dayDate options.expectedDate (linesLeft files))
  rw [ordered_dayPrints_iff] at hends
  unfold loadGfdlDay
  dsimp only
  cases hloop : (sortByName (directory.filter (fun file => isCsv file.1))).foldlM (loadFile options)
      { registry := registry, expected := options.expectedDate } with
  | error e =>
      -- the load is given up where the files of a contract overlap, and only there
      rw [hloop] at hends
      constructor
      · rintro ⟨_, _, hrun, _⟩
        cases hrun
      · rintro ⟨_, horder⟩
        exact absurd horder hends
  | ok s =>
      rw [hloop] at hends
      obtain ⟨ids, hloading, hfiles, hrows⟩ := hends
      have horder : InTimeOrder (dayDate options.expectedDate (linesLeft files)) options files := by
        rw [← ordered_dayPrints_iff, ordered_iff hloading.sound hloading.names]
        exact hloading.ordered
      rw [and_iff_left horder, ← linesCarried_eq_iff]
      constructor
      · rintro ⟨_, _, ⟨⟩, hsound⟩
        exact hrows.symm.trans hsound.counted
      · intro hcarried
        exact ⟨_, _, rfl, loads_soundly hloading hfiles (hrows.trans hcarried) _ _⟩

/-- A file with one row of the 22nd of January at a time. -/
def oneRow (time : String) : Bytes :=
  text "Ticker,Date,Time,LTP,BuyPrice,BuyQty,SellPrice,SellQty,LTQ,OpenInterest\r\nNIFTY27JAN2627250CE.NFO,22/01/2026," ++
    text time ++ text ",1.4,1.35,69940,1.4,54730,0,256360\r\n"

/-- Two files of one contract. -/
def twoFiles (time time' : String) : List (Bytes × Bytes) :=
  [(text "NIFTY27JAN2627250CE.csv", oneRow time'), (text "NIFTY27JAN2627250CE.NFO.csv", oneRow time)]

theorem day_loads_soundly_iff_two : ∃ registry' day,
    loadGfdlDay {} (twoFiles "09:15:00" "09:16:00") {} = .ok (registry', day) ∧
      LoadsSoundly {} (filesRead {} (twoFiles "09:15:00" "09:16:00")) day :=
  (day_loads_soundly_iff .empty (twoFiles "09:15:00" "09:16:00") {}).mpr ⟨by decide +kernel, by decide +kernel⟩

/-- Of two files of one contract the second in name order is the first in time: the load is given up. -/
theorem overlapping_files_abort : ¬ ∃ registry' day,
    loadGfdlDay {} (twoFiles "09:16:00" "09:15:00") {} = .ok (registry', day) ∧
      LoadsSoundly {} (filesRead {} (twoFiles "09:16:00" "09:15:00")) day := by
  rintro ⟨_, _, hrun, _⟩
  have hfails : (loadGfdlDay {} (twoFiles "09:16:00" "09:15:00") {}).isOk = false := by decide +kernel
  rw [hrun] at hfails
  cases hfails

end Volforge.Gfdl
