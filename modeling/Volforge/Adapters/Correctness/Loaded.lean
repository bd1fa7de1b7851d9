import Volforge.Adapters.Correctness.Archive
import Volforge.Store.Correctness.Gathered

/-!
# `Adapters.Correctness.Loaded` — what a loaded day can be relied on for

Whatever a directory or an archive holds, a load that succeeds gives a session the engine can take as it is: it
keeps the contract of a session, its instruments resolve in the registry that came with it, no two of them are
the same contract, and it has no more rows than bytes were read.

## Contents
- **Registries.** `Closed`: every contract's underlying has a name.
- **Rows.** What one row and one buffer keep: `RowSink.Holding`.
- **Files, members.** The step of either loader: `DayLoop.Holding`.
- **Days.** `LoadedDay`, for both loaders.
-/

namespace Volforge

open IdTable

/-! ## Registries -/

namespace InstrumentRegistry

/-- Every contract's underlying has a name. -/
def Closed (r : InstrumentRegistry) : Prop := ∀ id s, At r.specs id s → ∃ name, At r.underlyings s.underlying name

theorem closed_empty : Closed {} := by
  rintro id s ⟨i, _, hget⟩
  cases hget

/-- Adding a contract of an interned underlying. -/
theorem Closed.add {r : InstrumentRegistry} (hr : r.Sound) (h : r.Closed) {spec : InstrumentSpec} {name : Bytes}
    (hname : At (r.internUnderlying name).1.underlyings spec.underlying name) :
    ((r.internUnderlying name).1.add spec).1.Closed := by
  obtain ⟨hsound, hext, _, hspecs⟩ := internUnderlying_spec hr name
  obtain ⟨hsound', _, hnames, s, hs, _, hcase⟩ := add_spec hsound spec
  intro id s' hs'
  rw [hnames]
  have hold : At (r.internUnderlying name).1.specs id s' → ∃ name', At (r.internUnderlying name).1.underlyings s'.underlying name' := by
    rw [hspecs]
    intro hat
    obtain ⟨name', hname'⟩ := h id s' hat
    exact ⟨name', hext.names _ _ hname'⟩
  rcases add_only spec hs' with hat | rfl
  · exact hold hat
  · rw [at_inj hs' hs]
    rcases hcase with hat | ⟨_, rfl⟩
    · rw [at_inj hs' hs] at hold
      exact hold hat
    · exact ⟨name, hname⟩

end InstrumentRegistry

/-- The instruments of a session over a sound, closed registry are registered. -/
theorem SessionData.registered_of_closed {s : SessionData} (hr : s.registry.Sound) (hclosed : s.registry.Closed)
    (hlisted : ∀ id ∈ s.instruments, ∃ spec, At s.registry.specs id spec) : s.Registered where
  resolves := by
    intro id hid
    obtain ⟨spec, hspec⟩ := hlisted id hid
    obtain ⟨name, hname⟩ := hclosed id spec hspec
    exact ⟨⟨spec, name, s.quotes id⟩, InstrumentRegistry.spec_eq_ok.mpr hspec,
      InstrumentRegistry.underlyingName_eq_ok.mpr hname, rfl⟩
  distinct := by
    intro id _ id' _ i i' hi hi' heq
    have hname := InstrumentRegistry.underlyingName_eq_ok.mp hi.name
    have hname' := InstrumentRegistry.underlyingName_eq_ok.mp hi'.name
    have hunderlying := hr.names.unique hname hname' (congrArg Identity.name heq)
    have hkey : InstrumentRegistry.keyOf i.spec = InstrumentRegistry.keyOf i'.spec := by
      unfold InstrumentRegistry.keyOf
      rw [Key.mk.injEq]
      exact ⟨hunderlying, congrArg Identity.kind heq, congrArg Identity.expiry heq, congrArg Identity.strike heq,
        congrArg Identity.right heq⟩
    exact hr.keys.unique (InstrumentRegistry.spec_eq_ok.mp hi.spec) (InstrumentRegistry.spec_eq_ok.mp hi'.spec) hkey

namespace Gfdl

/-! ## Rows -/

/-- The session in the making: built of the rows that were read, its instruments listed in the registry. -/
structure RowSink.Holding (r : InstrumentRegistry) (sink : RowSink) : Prop where
  built : ∀ s, sink.session = some s → s.Built
  date : ∀ s, sink.session = some s → s.date = sink.date
  total : ∀ s, sink.session = some s → s.total = sink.rowsRead
  listed : ∀ s, sink.session = some s → ∀ id ∈ s.instruments, ∃ spec, At r.specs id spec
  none : sink.session = none → sink.rowsRead = 0

theorem RowSink.Holding.mono {r r' : InstrumentRegistry} {sink : RowSink} (h : sink.Holding r) (hext : r.Extends r') :
    sink.Holding r' :=
  { h with listed := fun s hs id hid => (h.listed s hs id hid).imp (fun spec hspec => hext.specs id spec hspec) }

/-- What the session is to the invariant, not what is counted besides. -/
theorem RowSink.Holding.congr {r : InstrumentRegistry} {sink sink' : RowSink} (h : sink.Holding r)
    (hsession : sink'.session = sink.session) (hdate : sink'.date = sink.date) (hread : sink'.rowsRead = sink.rowsRead) :
    sink'.Holding r := by
  refine ⟨?_, ?_, ?_, ?_, ?_⟩
  · rw [hsession]
    exact h.built
  · rw [hsession, hdate]
    exact h.date
  · rw [hsession, hread]
    exact h.total
  · rw [hsession]
    exact h.listed
  · rw [hsession, hread]
    exact h.none

/-- The step lemma of `append` for its lists. -/
theorem append_lists {s s' : MemorySessionData} {id : InstrumentId} {q : Quote} (h : s.append id q = .ok s') :
    s'.date = s.date ∧ s'.total = s.total + 1 ∧ ∀ id' ∈ s'.instruments, id' ∈ s.instruments ∨ id' = id := by
  unfold MemorySessionData.append at h
  obtain ⟨_, h⟩ := Run.guard_eq_ok.mp h
  cases h
  refine ⟨rfl, rfl, fun id' hid' => ?_⟩
  dsimp only at hid'
  split_ifs at hid'
  · exact .inl hid'
  · exact (List.mem_append.mp hid').imp_right List.mem_singleton.mp

theorem keepRow_holding {r : InstrumentRegistry} {id : InstrumentId} {spec : InstrumentSpec} (hid : At r.specs id spec)
    {options : GfdlLoadOptions} {registry : InstrumentRegistry} {s s' : RowLoop} {row : CsvRow} (h : s.sink.Holding r)
    (hstep : keepRow id options registry s row = .ok s') :
    s'.sink.Holding r ∧ s'.sink.rowsRead = s.sink.rowsRead + 1 := by
  unfold keepRow at hstep
  obtain ⟨session, happend, hstep⟩ := Run.bind_eq_ok.mp hstep
  cases hstep
  refine ⟨?_, rfl⟩
  -- the session that is appended to, new or not
  have hopen : (s.sink.openSession registry row.date).1.Built ∧
      (s.sink.openSession registry row.date).1.date = (s.sink.openSession registry row.date).2 ∧
      (s.sink.openSession registry row.date).1.total = s.sink.rowsRead ∧
      ∀ id' ∈ (s.sink.openSession registry row.date).1.instruments, ∃ spec, At r.specs id' spec := by
    unfold RowSink.openSession
    cases hsession : s.sink.session with
    | none => exact ⟨MemorySessionData.new_built _ _, rfl, (h.none hsession).symm, nofun⟩
    | some session => exact ⟨h.built _ hsession, h.date _ hsession, h.total _ hsession, h.listed _ hsession⟩
  obtain ⟨hbuilt, hdate, htotal, hlisted⟩ := hopen
  obtain ⟨hdate', htotal', hlisted'⟩ := append_lists happend
  refine ⟨?_, ?_, ?_, ?_, nofun⟩
  · rintro _ ⟨⟩
    exact hbuilt.append happend
  · rintro _ ⟨⟩
    exact hdate'.trans hdate
  · rintro _ ⟨⟩
    exact htotal'.trans (congrArg (· + 1) htotal)
  · rintro _ ⟨⟩ id' hid'
    rcases hlisted' id' hid' with hold | rfl
    · exact hlisted id' hold
    · exact ⟨spec, hid⟩

/-- The step lemma of the loop over rows. -/
theorem parseRow_holding {r : InstrumentRegistry} {id : InstrumentId} {spec : InstrumentSpec} (hid : At r.specs id spec)
    {options : GfdlLoadOptions} {registry : InstrumentRegistry} {s s' : RowLoop} {line : Bytes} (h : s.sink.Holding r)
    (hstep : parseRow id options registry s line = .ok s') :
    s'.sink.Holding r ∧ s'.sink.rowsRead ≤ s.sink.rowsRead + 1 := by
  have hskip : s.skip.sink.Holding r ∧ s.skip.sink.rowsRead ≤ s.sink.rowsRead + 1 :=
    ⟨h.congr rfl rfl rfl, Nat.le_succ _⟩
  unfold parseRow at hstep
  dsimp only at hstep
  split_ifs at hstep
  · cases hstep
    exact hskip
  · cases hstep
    exact hskip
  · cases hstep
    exact hskip
  · cases hstep
    exact ⟨h.congr rfl rfl rfl, Nat.le_succ _⟩
  · obtain ⟨hholding, hread⟩ := keepRow_holding hid (s := s.onDay (scanRow line).date) (h.congr rfl rfl rfl) hstep
    exact ⟨hholding, le_of_eq hread⟩

theorem length_linesFrom (line p : Bytes) : (linesFrom line p).length ≤ (if line.isEmpty then 0 else 1) + p.length := by
  induction p generalizing line with
  | nil =>
      unfold linesFrom
      split_ifs <;> simp
  | cons c p ih =>
      have hnext := ih (line ++ [c])
      have hempty := ih []
      unfold linesFrom
      simp only [List.isEmpty_nil, if_true, List.length_cons] at *
      split_ifs at * <;> simp_all <;> omega

theorem length_linesOf (data : Bytes) : (linesOf (skipHeader data)).length ≤ data.length := by
  have hlines := length_linesFrom [] (skipHeader data)
  have hskip : (skipHeader data).length ≤ data.length := by
    unfold skipHeader
    split_ifs
    · rw [List.length_drop]
      exact le_trans (Nat.sub_le ..) (List.dropWhile_sublist _).length_le
    · exact le_rfl
  rw [List.isEmpty_nil, if_pos rfl, Nat.zero_add] at hlines
  exact le_trans hlines hskip

/-- The run lemma of a buffer. -/
theorem parseCsvRows_holding {r : InstrumentRegistry} {id : InstrumentId} {spec : InstrumentSpec} (hid : At r.specs id spec)
    {options : GfdlLoadOptions} {registry : InstrumentRegistry} {sink sink' : RowSink} {data : Bytes} {rowDate : Date}
    (h : sink.Holding r) (hrun : parseCsvRows data id options registry sink = .ok (sink', rowDate)) :
    sink'.Holding r ∧ sink'.rowsRead ≤ sink.rowsRead + data.length := by
  unfold parseCsvRows at hrun
  obtain ⟨s, hloop, hrun⟩ := Run.bind_eq_ok.mp hrun
  cases hrun
  have hinv := Run.foldlM_inv_rest (fun (rest : List Bytes) (s : RowLoop) => s.sink.Holding r ∧
      s.sink.rowsRead + rest.length ≤ sink.rowsRead + (linesOf (skipHeader data)).length) ?_ ⟨h, le_rfl⟩ hloop
  · have hlines := length_linesOf data
    refine ⟨hinv.1, ?_⟩
    have hread := hinv.2
    rw [List.length_nil] at hread
    omega
  · rintro s line rest s' ⟨hholding, hread⟩ hstep
    obtain ⟨hholding', hread'⟩ := parseRow_holding hid hholding hstep
    rw [List.length_cons] at hread
    exact ⟨hholding', by omega⟩

/-! ## Files, members -/

/-- What the loop over files or members keeps. -/
structure DayLoop.Holding (lot : Int32) (s : DayLoop) : Prop where
  sound : s.registry.Sound
  closed : s.registry.Closed
  lots : s.registry.OptionsOf lot
  sink : s.sink.Holding s.registry

theorem DayLoop.Holding.congr {lot : Int32} {s s' : DayLoop} (h : s.Holding lot) (hregistry : s'.registry = s.registry)
    (hsink : s'.sink = s.sink) : s'.Holding lot := by
  refine ⟨?_, ?_, ?_, ?_⟩
  · rw [hregistry]
    exact h.sound
  · rw [hregistry]
    exact h.closed
  · rw [hregistry]
    exact h.lots
  · rw [hregistry, hsink]
    exact h.sink

theorem DayLoop.holding_new {lot : Int32} {registry : InstrumentRegistry} (hr : registry.Sound) (hclosed : registry.Closed)
    (hlots : registry.OptionsOf lot) (expected : Date) :
    ({ registry := registry, expected := expected } : DayLoop).Holding lot :=
  ⟨hr, hclosed, hlots, nofun, nofun, nofun, nofun, fun _ => rfl⟩

/-- The state in which the rows of a contract are read. -/
def DayLoop.enter (s : DayLoop) (sym : ParsedSymbol) (options : GfdlLoadOptions) : DayLoop × InstrumentId :=
  let interned := s.registry.internUnderlying sym.underlying
  let added := interned.1.add (specOf sym options interned.2)
  ({ s with registry := added.1, out := { s.out with underlying := interned.2 } }, added.2)

/-- Reading the rows of a contract. -/
def DayLoop.readRows (s : DayLoop) (sym : ParsedSymbol) (options : GfdlLoadOptions) (name data : Bytes) :
    Except Error DayLoop := do
  let (sink, rowDate) ← parseCsvRows data (s.enter sym options).2 options (s.enter sym options).1.registry
    (s.enter sym options).1.sink
  return ((s.enter sym options).1.drain sink).countFile name rowDate

theorem readRows_holding {s s' : DayLoop} {sym : ParsedSymbol} {options : GfdlLoadOptions} {name data : Bytes}
    (h : s.Holding options.lotSize) (hstep : s.readRows sym options name data = .ok s') :
    s'.Holding options.lotSize ∧ s'.out.rowsRead ≤ s.out.rowsRead + data.length := by
  obtain ⟨hsound, hext, _, spec, _, hspec, _⟩ := listed_of_add h.sound sym options
  obtain ⟨_, _, hname, hspecs⟩ := InstrumentRegistry.internUnderlying_spec h.sound sym.underlying
  have hclosed : (s.enter sym options).1.registry.Closed := h.closed.add h.sound hname
  have hinterned : (s.registry.internUnderlying sym.underlying).1.OptionsOf options.lotSize := by
    unfold InstrumentRegistry.OptionsOf
    rw [hspecs]
    exact h.lots
  have hlots : (s.enter sym options).1.registry.OptionsOf options.lotSize := hinterned.add rfl rfl
  unfold DayLoop.readRows at hstep
  obtain ⟨⟨sink, rowDate⟩, hparse, hstep⟩ := Run.bind_eq_ok.mp hstep
  have hsink : (s.enter sym options).1.sink.Holding (s.enter sym options).1.registry := h.sink.mono hext
  obtain ⟨hholding, hread⟩ := parseCsvRows_holding hspec hsink hparse
  obtain ⟨warnings, hcount⟩ := countFile_eq ((s.enter sym options).1.drain sink) name rowDate
  dsimp only at hstep
  rw [hcount] at hstep
  cases hstep
  exact ⟨⟨hsound, hclosed, hlots, hholding⟩, hread⟩

theorem countFile_kept (s : DayLoop) (name : Bytes) (rowDate : Date) :
    (s.countFile name rowDate).registry = s.registry ∧ (s.countFile name rowDate).sink = s.sink := by
  obtain ⟨warnings, hcount⟩ := countFile_eq s name rowDate
  rw [hcount]
  exact ⟨rfl, rfl⟩

/-- A file is skipped, or its rows are read; the expiries are collected besides. -/
theorem loadFile_cases {options : GfdlLoadOptions} {s s' : DayLoop} {file : Bytes × Bytes}
    (hstep : loadFile options s file = .ok s') :
    (s'.registry = s.registry ∧ s'.sink = s.sink) ∨
      ∃ sym t, s.readRows sym options file.1 file.2 = .ok t ∧ s'.registry = t.registry ∧ s'.sink = t.sink := by
  obtain ⟨name, buffer⟩ := file
  cases hread : readSymbol options (name, buffer) with
  | none =>
      obtain ⟨t, ht, hsink, hregistry, _⟩ := loadFile_of_skip (s := s) hread
      rw [hstep] at ht
      cases ht
      exact .inl ⟨hregistry, hsink⟩
  | some f =>
      unfold readSymbol at hread
      unfold loadFile at hstep
      dsimp only at hread hstep
      cases hsym : parseGfdlSymbol name with
      | none =>
          rw [hsym] at hread
          cases hread
      | some sym =>
          rw [hsym] at hread hstep
          dsimp only at hread hstep
          split_ifs at hread with hother hempty
          rw [if_neg hother, if_neg hempty] at hstep
          obtain ⟨⟨sink, rowDate⟩, hparse, hstep⟩ := Run.bind_eq_ok.mp hstep
          cases hstep
          refine .inr ⟨sym, _, Run.bind_eq_ok.mpr ⟨(sink, rowDate), hparse, rfl⟩, ?_, ?_⟩
          · exact (countFile_kept _ name rowDate).1.trans
              (countFile_kept ((s.enter sym options).1.drain sink) name rowDate).1.symm
          · exact (countFile_kept _ name rowDate).2.trans
              (countFile_kept ((s.enter sym options).1.drain sink) name rowDate).2.symm

/-- A member is skipped, or its rows are read. -/
theorem loadEntry_cases {options : GfdlLoadOptions} {s s' : DayLoop} {entry : Bytes × Option Bytes}
    (hstep : loadEntry options s entry = .ok s') :
    (s'.registry = s.registry ∧ s'.sink = s.sink) ∨
      ∃ sym raw, entry.2 = some raw ∧ s.readRows sym options (leafOf entry.1) raw = .ok s' := by
  unfold loadEntry at hstep
  dsimp only at hstep
  cases hsym : parseGfdlSymbol (leafOf entry.1) with
  | none =>
      rw [hsym] at hstep
      dsimp only at hstep
      split_ifs at hstep
      · cases hstep
        exact .inl ⟨rfl, rfl⟩
      · cases hstep
        exact .inl ⟨rfl, rfl⟩
  | some sym =>
      rw [hsym] at hstep
      dsimp only at hstep
      split_ifs at hstep
      · cases hstep
        exact .inl ⟨rfl, rfl⟩
      · cases hraw : entry.2 with
        | none =>
            rw [hraw] at hstep
            cases hstep
            exact .inl ⟨rfl, rfl⟩
        | some raw =>
            rw [hraw] at hstep
            exact .inr ⟨sym, raw, rfl, hstep⟩

/-- The step lemma of either loader, for what a file or a member holds. -/
theorem holding_of_step {s s' t : DayLoop} {sym : ParsedSymbol} {options : GfdlLoadOptions} {name data : Bytes}
    (h : s.Holding options.lotSize) (hread : s.readRows sym options name data = .ok t) (hregistry : s'.registry = t.registry)
    (hsink : s'.sink = t.sink) : s'.Holding options.lotSize ∧ s'.out.rowsRead ≤ s.out.rowsRead + data.length := by
  obtain ⟨hholding, hrows⟩ := readRows_holding h hread
  refine ⟨hholding.congr hregistry hsink, ?_⟩
  rw [show s'.out.rowsRead = t.out.rowsRead from congrArg RowSink.rowsRead hsink]
  exact hrows

theorem loadFile_holding {options : GfdlLoadOptions} {s s' : DayLoop} {file : Bytes × Bytes} (h : s.Holding options.lotSize)
    (hstep : loadFile options s file = .ok s') : s'.Holding options.lotSize ∧ s'.out.rowsRead ≤ s.out.rowsRead + file.2.length := by
  rcases loadFile_cases hstep with ⟨hregistry, hsink⟩ | ⟨sym, t, hread, hregistry, hsink⟩
  · refine ⟨h.congr hregistry hsink, ?_⟩
    rw [show s'.out.rowsRead = s.out.rowsRead from congrArg RowSink.rowsRead hsink]
    exact Nat.le_add_right ..
  · exact holding_of_step h hread hregistry hsink

/-- The bytes of a member that inflates. -/
def inflated (entry : Bytes × Option Bytes) : Nat := (entry.2.map List.length).getD 0

theorem loadEntry_holding {options : GfdlLoadOptions} {s s' : DayLoop} {entry : Bytes × Option Bytes} (h : s.Holding options.lotSize)
    (hstep : loadEntry options s entry = .ok s') : s'.Holding options.lotSize ∧ s'.out.rowsRead ≤ s.out.rowsRead + inflated entry := by
  rcases loadEntry_cases hstep with ⟨hregistry, hsink⟩ | ⟨sym, raw, hraw, hread⟩
  · refine ⟨h.congr hregistry hsink, ?_⟩
    rw [show s'.out.rowsRead = s.out.rowsRead from congrArg RowSink.rowsRead hsink]
    exact Nat.le_add_right ..
  · unfold inflated
    rw [hraw]
    exact holding_of_step h hread rfl rfl

/-- The run lemma of either loader. -/
theorem foldlM_holding {lot : Int32} {α : Type} {step : DayLoop → α → Except Error DayLoop} (size : α → Nat)
    (hstep : ∀ s x s', DayLoop.Holding lot s → step s x = .ok s' →
      s'.Holding lot ∧ s'.out.rowsRead ≤ s.out.rowsRead + size x)
    {xs : List α} {s t : DayLoop} (h : s.Holding lot) (hrun : xs.foldlM step s = .ok t) :
    t.Holding lot ∧ t.out.rowsRead ≤ s.out.rowsRead + (xs.map size).sum := by
  have hinv := Run.foldlM_inv_rest (fun (rest : List α) (u : DayLoop) => u.Holding lot ∧
    u.out.rowsRead + (rest.map size).sum ≤ s.out.rowsRead + (xs.map size).sum) ?_ ⟨h, le_rfl⟩ hrun
  · exact ⟨hinv.1, by simpa using hinv.2⟩
  · rintro u x rest u' ⟨hholding, hread⟩ hu
    obtain ⟨hholding', hread'⟩ := hstep u x u' hholding hu
    rw [List.map_cons, List.sum_cons] at hread
    exact ⟨hholding', by omega⟩

/-! ## Days -/

/-- A session that was loaded, with the registry it came with. -/
structure LoadedDay (lot : Int32) (registry : InstrumentRegistry) (day : GfdlDay) (s : MemorySessionData) : Prop where
  built : s.Built
  same : s.registry = registry
  sound : registry.Sound
  lots : registry.OptionsOf lot
  date : s.date = day.date
  total : s.total = day.rowsRead
  registered : s.session.Registered

theorem LoadedDay.rows {lot : Int32} {registry : InstrumentRegistry} {day : GfdlDay} {s : MemorySessionData}
    (h : LoadedDay lot registry day s) (id : InstrumentId) : (s.quotes id).size ≤ day.rowsRead := by
  rw [← h.total]
  by_cases hid : id ∈ s.instruments
  · rw [h.built.total]
    exact List.le_sum_of_mem (List.mem_map.mpr ⟨_, h.built.mem_instruments.mp hid, rfl⟩)
  · rw [h.built.quotes_of_not_mem hid]
    exact Nat.zero_le _

/-- A session of fewer rows than the 32-bit `row` can tell apart keeps the contract of a session. -/
theorem LoadedDay.contract {lot : Int32} {registry : InstrumentRegistry} {day : GfdlDay} {s : MemorySessionData}
    (h : LoadedDay lot registry day s) (hrows : day.rowsRead < 2 ^ 32) : s.session.Contract :=
  h.built.contract (fun id => lt_of_le_of_lt (h.rows id) hrows)

/-- What a loop that has ended leaves. -/
theorem DayLoop.Holding.loaded {lot : Int32} {t : DayLoop} (h : t.Holding lot) (expiries : List Date) {s : MemorySessionData}
    (hs : closeSession t.registry t.out.session = some s) :
    LoadedDay lot t.registry { t.out with expiries := expiries, session := closeSession t.registry t.out.session } s := by
  obtain ⟨session, hsession, rfl⟩ := Option.map_eq_some_iff.mp hs
  have hbuilt : MemorySessionData.Built { session with registry := t.registry } := by
    obtain ⟨hkeys, hinstruments, hkept, htotal, hcached⟩ := h.sink.built session hsession
    exact ⟨hkeys, hinstruments, hkept, htotal, hcached⟩
  exact ⟨hbuilt.buildEventOrder, rfl, h.sound, h.lots, h.sink.date session hsession, h.sink.total session hsession,
    SessionData.registered_of_closed h.sound h.closed (h.sink.listed session hsession)⟩

/-- The bytes of a directory's files. -/
def directoryBytes (directory : List (Bytes × Bytes)) : Nat := (directory.map (fun file => file.2.length)).sum

/-- The bytes an archive's members inflate to. -/
def archiveBytes (archive : List (Bytes × Option Bytes)) : Nat := (archive.map inflated).sum

/-- **A directory that loads** gives a session the engine can take, of no more rows than bytes. -/
theorem loadGfdlDay_loaded {registry registry' : InstrumentRegistry} (hr : registry.Sound) (hclosed : registry.Closed)
    {directory : List (Bytes × Bytes)} {options : GfdlLoadOptions} (hlots : registry.OptionsOf options.lotSize) {day : GfdlDay}
    (hload : loadGfdlDay registry directory options = .ok (registry', day)) :
    day.rowsRead ≤ directoryBytes directory ∧ ∀ s, day.session = some s → LoadedDay options.lotSize registry' day s := by
  unfold loadGfdlDay at hload
  obtain ⟨t, hloop, hload⟩ := Run.bind_eq_ok.mp hload
  cases hload
  obtain ⟨hholding, hread⟩ := foldlM_holding (fun file : Bytes × Bytes => file.2.length)
    (fun s x s' => loadFile_holding) (DayLoop.holding_new hr hclosed hlots _) hloop
  refine ⟨?_, fun s hs => hholding.loaded _ hs⟩
  have hsort := (sortByName_perm (directory.filter (fun file => isCsv file.1))).map (fun file => file.2.length)
  have hfilter : ((directory.filter (fun file => isCsv file.1)).map (fun file => file.2.length)).Sublist
      (directory.map (fun file => file.2.length)) := List.filter_sublist.map _
  rw [hsort.sum_eq] at hread
  have hsum := hfilter.sum_le_sum (fun _ _ => Nat.zero_le _)
  exact le_trans hread (by simpa [directoryBytes] using hsum)

/-- **An archive that loads**, likewise. -/
theorem loadGfdlZip_loaded {registry registry' : InstrumentRegistry} (hr : registry.Sound) (hclosed : registry.Closed)
    {zipPath : Bytes} {archive : List (Bytes × Option Bytes)} {options : GfdlLoadOptions}
    (hlots : registry.OptionsOf options.lotSize) {day : GfdlDay}
    (hload : loadGfdlZip registry zipPath archive options = .ok (registry', day)) :
    day.rowsRead ≤ archiveBytes archive ∧ ∀ s, day.session = some s → LoadedDay options.lotSize registry' day s := by
  unfold loadGfdlZip at hload
  obtain ⟨t, hloop, hload⟩ := Run.bind_eq_ok.mp hload
  have hdone : ∃ expiries, registry' = t.registry ∧
      day = { t.out with expiries := expiries, session := closeSession t.registry t.out.session } := by
    cases hsession : t.out.session with
    | none =>
        rw [hsession] at hload
        cases hload
        exact ⟨_, rfl, rfl⟩
    | some session =>
        rw [hsession] at hload
        obtain ⟨expiries, _, hload⟩ := Run.bind_eq_ok.mp hload
        cases hload
        exact ⟨_, rfl, rfl⟩
  obtain ⟨expiries, rfl, rfl⟩ := hdone
  obtain ⟨hholding, hread⟩ := foldlM_holding inflated
    (fun s x s' => loadEntry_holding) (DayLoop.holding_new hr hclosed hlots _) hloop
  refine ⟨?_, fun s hs => hholding.loaded _ hs⟩
  rw [((sortByName_perm archive).map inflated).sum_eq] at hread
  exact le_trans hread (by simp [archiveBytes])

end Gfdl

end Volforge
