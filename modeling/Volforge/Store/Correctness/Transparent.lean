import Volforge.Core.Correctness.MemorySource
import Volforge.Core.Correctness.Sessions
import Volforge.Core.Correctness.Twins
import Volforge.Store.Correctness.Reread

/-!
# `Store.Correctness.Transparent` — a backtest over files is the backtest over memory

Sessions built in memory are written, one file a day, and the directory is scanned into their registry. The sessions
of the scan are then the `Same` as those in memory, for whatever strategy runs over them.

## Contents
- **Sessions.** `Serves` says what an opened file answers as a session; `same_of_serves`.
- **Maps by date.** What a source in memory loads, and in which order it lists its dates.
- **Scans.** `Stored`, the invariant of the scan, and its run lemma.
- **Main result.** `store_is_transparent`.
-/

namespace Volforge

open IdTable

/-! ## Sessions -/

/-- The file's session answers as `d` does, and never throws. -/
structure VfdaySession.Serves (v : VfdaySession) (r : InstrumentRegistry) (d : SessionData) : Prop where
  date : d.date = v.date
  registry : d.registry = r
  instruments : d.instruments = v.instruments
  quotes : ∀ id, v.quotes id = .ok (d.quotes id)
  totalObservations : d.totalObservations = v.totalRows.toNat
  eventOrder : d.eventOrder = []
  timeline : d.timeline = v.timeline
  printedBy : d.printedBy = v.printedBy

namespace SessionData

/-- The session as its file has it: what prints, and the timeline. -/
def stored (s : SessionData) : SessionData :=
  { s with instruments := s.printing, eventOrder := [], timeline := timelineOf s }

theorem mem_printing {s : SessionData} {id : InstrumentId} :
    id ∈ s.printing ↔ id ∈ s.instruments ∧ (s.quotes id).isEmpty = false := by
  unfold printing
  rw [List.mem_filter, Bool.not_eq_true']

/-- What does not print has no columns. -/
theorem quotes_of_not_printing {s : SessionData} (hc : s.Contract) {id : InstrumentId} (h : id ∉ s.printing) :
    s.quotes id = {} := by
  refine eq_default_of_isEmpty (hc.aligned id) ?_
  by_cases hid : id ∈ s.instruments
  · by_contra hempty
    exact h (mem_printing.mpr ⟨hid, by simpa [QuoteColumns.isEmpty] using hempty⟩)
  · rw [hc.listed id hid]
    rfl

theorem printsAt_stored {s : SessionData} {t : Timestamp} : s.stored.PrintsAt t ↔ s.PrintsAt t := by
  constructor
  · rintro ⟨id, hid, hrow⟩
    exact ⟨id, (mem_printing.mp hid).1, hrow⟩
  · rintro ⟨id, hid, i, hi, ht⟩
    exact ⟨id, mem_printing.mpr ⟨hid, QuoteColumns.isEmpty_eq_false hi⟩, i, hi, ht⟩

theorem stored_contract {s : SessionData} (hc : s.Contract) : s.stored.Contract where
  nodup := hc.nodup.filter _
  listed id hid := congrArg QuoteColumns.ts (quotes_of_not_printing hc hid)
  aligned := hc.aligned
  ascending := hc.ascending
  located := hc.located
  total := hc.total.trans (sum_printing s s.instruments).symm
  eventOrder := .inl rfl
  timeline := by
    obtain ⟨hasc, hmem⟩ := timelineOf_spec hc
    exact .inr ⟨hasc, fun t => (hmem t).trans printsAt_stored.symm⟩
  printedBy := hc.printedBy

/-- A run sees the stored session as the session it was written from. -/
theorem same_stored {s : SessionData} (hc : s.Contract) (htimed : s.Timed) (honce : s.eventOrder.Nodup) : s.Same s.stored where
  date := rfl
  registry := rfl
  quotes := rfl
  printedBy := rfl
  steps := by
    have htimed' : s.stored.Timed := fun t ht => htimed t (printsAt_stored.mp ht)
    have hsteps := htimed'.steps (stored_contract hc)
    exact IsTimeline.unique (s := s) ⟨hsteps.ascending, fun t => (hsteps.mem_iff t).trans printsAt_stored⟩ (htimed.steps hc)
  observations := by
    rw [observations_eq (stored_contract hc) List.nodup_nil, observations_eq hc honce]
    rfl

/-- Opened into the session's own registry, its file serves the stored session. -/
theorem Written.serves {s : SessionData} {w : Writer} {items : List Item} (h : s.Written w items) (hc : s.Contract)
    (hr : s.registry.Sound) (path : String) : (w.opened s (timelineOf s) path s.registry).Serves s.registry s.stored := by
  obtain ⟨hinstruments, _⟩ := h.reread_same path hr
  have hlisted : ∀ id ∈ s.printing, (w.opened s (timelineOf s) path s.registry).quotes id = .ok (s.quotes id) ∧
      ∀ t, (w.opened s (timelineOf s) path s.registry).printedBy id t = lookPrintedBy s.quotes id t := by
    intro id hid
    have hall := h.reread path hr
    rw [hinstruments] at hall
    obtain ⟨n, hn, rfl⟩ := List.getElem_of_mem hid
    obtain ⟨hquotes, hprinted, _⟩ := (List.forall₂_iff_get.mp hall).2 n hn hn
    exact ⟨hquotes, hprinted⟩
  have hothers : ∀ id, id ∉ s.printing → (w.opened s (timelineOf s) path s.registry).quotes id = .ok {} ∧
      ∀ t, (w.opened s (timelineOf s) path s.registry).printedBy id t = false :=
    fun id hid => h.reread_others path (hinstruments.symm ▸ hid)
  refine ⟨rfl, rfl, hinstruments.symm, fun id => ?_, (h.reread_total path).symm, rfl,
    (h.reread_timeline hc path).symm, ?_⟩
  · by_cases hid : id ∈ s.printing
    · exact (hlisted id hid).1
    · rw [(hothers id hid).1]
      exact congrArg Except.ok (quotes_of_not_printing hc hid).symm
  · funext id t
    refine (hc.printedBy id t).trans ?_
    by_cases hid : id ∈ s.printing
    · exact ((hlisted id hid).2 t).symm
    · rw [(hothers id hid).2 t]
      unfold lookPrintedBy
      rw [quotes_of_not_printing hc hid]
      rfl

end SessionData

/-! ## Maps by date -/

namespace MemoryDataSource

theorem lookup_cons_eq {α : Type} (k key : Int32) (a : α) (rest : List (Int32 × α)) :
    ((key, a) :: rest).lookup k = if k = key then some a else rest.lookup k := by
  rw [List.lookup_cons]
  by_cases h : k = key
  · rw [if_pos h, beq_iff_eq.mpr h]
  · rw [if_neg h, beq_eq_false_iff_ne.mpr h]

theorem lookup_insertSession (key k : Int32) (s : MemorySessionData) (m : List (Int32 × MemorySessionData)) :
    (insertSession key s m).lookup k = if k = key then some s else m.lookup k := by
  induction m with
  | nil => exact lookup_cons_eq k key s []
  | cons x rest ih =>
      obtain ⟨k', s'⟩ := x
      unfold insertSession
      by_cases hlt : key < k'
      · rw [if_pos hlt, lookup_cons_eq]
      rw [if_neg hlt]
      by_cases heq : key = k'
      · rw [if_pos heq, lookup_cons_eq, lookup_cons_eq, ← heq]
        split_ifs <;> rfl
      · -- the entry of another date stays where it is
        rw [if_neg heq, lookup_cons_eq, lookup_cons_eq, ih]
        by_cases hk : k = k'
        · rw [if_pos hk, if_neg (fun h => heq (h.symm.trans hk)), if_pos hk]
        · rw [if_neg hk, if_neg hk]

/-- The dates are kept as a set of them in order. -/
theorem sessions_addSession (m : MemoryDataSource) (s : MemorySessionData) :
    (m.addSession s).sessions = InstrumentRegistry.insertDate s.date m.sessions := by
  unfold sessions addSession
  dsimp only
  induction m.byDate with
  | nil => rfl
  | cons x rest ih =>
      obtain ⟨k, s'⟩ := x
      unfold insertSession
      rw [List.map_cons]
      unfold InstrumentRegistry.insertDate
      have hlt : (s.date < (⟨k⟩ : Date)) ↔ s.date.yyyymmdd < k := Iff.rfl
      have heq : s.date = (⟨k⟩ : Date) ↔ s.date.yyyymmdd = k := by
        rw [Date.mk.injEq]
      simp only [hlt, heq]
      split_ifs with h₁ h₂
      · rfl
      · rw [List.map_cons, h₂]
      · rw [List.map_cons, ih]

end MemoryDataSource

/-! ## Days -/

/-- A session built in memory that can be stored: it fits the format, and no row has the time that stands for
    none. -/
structure Storable (r : InstrumentRegistry) (s : MemorySessionData) : Prop where
  built : Run.Reach MemorySessionData.apply { date := s.date, registry := r } s
  rows : ∀ id, (s.quotes id).size < 2 ^ 32
  registered : s.session.Registered
  fits : s.session.FitsFormat
  times : (timelineOf s.session).length < 2 ^ 32
  timed : s.session.Timed

namespace Storable

variable {r : InstrumentRegistry} {s : MemorySessionData}

theorem contract (h : Storable r s) : s.session.Contract :=
  (MemorySessionData.built_of_reach h.built).contract h.rows

/-- Building a session does not touch its registry. -/
theorem registry (h : Storable r s) : s.session.registry = r := by
  refine h.built.inv (fun s' => s'.registry = r) rfl (fun s' op s'' hs' hstep => ?_)
  cases op with
  | append id q =>
      unfold MemorySessionData.apply MemorySessionData.append at hstep
      dsimp only at hstep
      obtain ⟨_, hstep⟩ := Run.guard_eq_ok.mp hstep
      cases hstep
      exact hs'
  | buildEventOrder =>
      cases hstep
      exact hs'

theorem once (h : Storable r s) : s.session.eventOrder.Nodup := by
  rcases (MemorySessionData.built_of_reach h.built).order h.rows with hnone | ⟨hpair, _⟩
  · have hnone : s.session.eventOrder = [] := hnone
    rw [hnone]
    exact List.nodup_nil
  · refine hpair.imp (fun {a b} hab heq => ?_)
    rw [heq] at hab
    exact hab.asymm hab

theorem same (h : Storable r s) : s.session.Same s.session.stored :=
  SessionData.same_stored h.contract h.timed h.once

end Storable

/-! ## Scans -/

/-- What the scan keeps of a day: its session, in the place of the one in memory. -/
def KeepsDay (r : InstrumentRegistry) (day : String × MemorySessionData) (kept : Int32 × VfdaySession) : Prop :=
  kept.1 = day.2.date.yyyymmdd ∧ kept.2.Serves r day.2.session.stored

/-- The invariant of the scan: nothing is amiss, and every day so far is kept. -/
structure Stored (r : InstrumentRegistry) (days : List (String × MemorySessionData)) (source : VfdaySource) : Prop where
  problems : source.problems = []
  files : source.files = days.map (fun day => (day.2.date.yyyymmdd, day.1))
  cache : List.Forall₂ (KeepsDay r) days source.cache

/-- A day and the file it was written to. -/
def FileOf (day : String × MemorySessionData) (file : String × Bytes) : Prop :=
  file.1 = day.1 ∧ writeVfday day.2.session = .ok file.2

theorem exists_fileOf {r : InstrumentRegistry} {day : String × MemorySessionData} (h : Storable r day.2) :
    ∃ file, FileOf day file := by
  obtain ⟨w, items, hw⟩ := SessionData.exists_written h.contract h.registered h.fits h.times
  exact ⟨(day.1, _), rfl, hw.file⟩

/-- The file of a day opens into the registry and leaves it as it is. -/
theorem openFile_of_fileOf {r : InstrumentRegistry} (hr : r.Sound) {day : String × MemorySessionData}
    {file : String × Bytes} (h : Storable r day.2) (hfile : FileOf day file) :
    ∃ v, VfdaySession.openFile file.1 file.2 r = (.ok v, r) ∧ v.date = day.2.date ∧ v.Serves r day.2.session.stored := by
  obtain ⟨w, items, hw⟩ := SessionData.exists_written h.contract h.registered h.fits h.times
  obtain ⟨_, hbytes⟩ := hfile
  rw [hw.file] at hbytes
  have hregistry := h.registry
  have hsound : day.2.session.registry.Sound := hregistry.symm ▸ hr
  have hopen := hw.opens file.1 hsound
  have hstays : (VfdaySession.registerMany (w.image day.2.session (timelineOf day.2.session)).metadata w.table
      day.2.session.registry).2 = day.2.session.registry := (hw.reread_same file.1 hsound).2
  rw [hstays, hregistry] at hopen
  refine ⟨_, Except.ok.inj hbytes ▸ hopen, rfl, ?_⟩
  have hserves := hw.serves h.contract hsound file.1
  rw [hregistry] at hserves
  exact hserves

/-- The step lemma of the scan. -/
theorem Stored.step {r : InstrumentRegistry} (hr : r.Sound) {days : List (String × MemorySessionData)}
    {source : VfdaySource} (h : Stored r days source) {day : String × MemorySessionData} {file : String × Bytes}
    (hday : Storable r day.2) (hfile : FileOf day file) (hnew : day.2.date ∉ days.map (·.2.date)) :
    (VfdaySource.scanFile (source, r) file).2 = r ∧ Stored r (days ++ [day]) (VfdaySource.scanFile (source, r) file).1 := by
  obtain ⟨v, hopen, hdate, hserves⟩ := openFile_of_fileOf hr hday hfile
  have hlookup : source.files.lookup day.2.date.yyyymmdd = none := by
    rw [← Option.not_isSome_iff_eq_none, List.lookup_isSome_iff, h.files]
    rintro ⟨p, hp, hkey⟩
    obtain ⟨other, hother, rfl⟩ := List.mem_map.mp hp
    refine hnew (List.mem_map.mpr ⟨other, hother, ?_⟩)
    exact Date.mk.injEq .. ▸ (beq_iff_eq.mp hkey).symm
  unfold VfdaySource.scanFile
  dsimp only
  rw [hopen]
  dsimp only
  rw [hdate, hlookup]
  refine ⟨rfl, h.problems, ?_, ?_⟩
  · rw [h.files, hfile.1, List.map_append]
    rfl
  · exact List.rel_append h.cache (.cons ⟨rfl, hserves⟩ .nil)

/-- The run lemma of the scan, from any point on. -/
theorem Stored.run {r : InstrumentRegistry} (hr : r.Sound) {done days : List (String × MemorySessionData)}
    {directory : List (String × Bytes)} (hfiles : List.Forall₂ FileOf days directory)
    (hdays : ∀ day ∈ days, Storable r day.2) (hdistinct : ((done ++ days).map (·.2.date)).Nodup) {source : VfdaySource}
    (h : Stored r done source) :
    (directory.foldl VfdaySource.scanFile (source, r)).2 = r ∧
      Stored r (done ++ days) (directory.foldl VfdaySource.scanFile (source, r)).1 := by
  induction hfiles generalizing done source with
  | nil =>
      rw [List.append_nil]
      exact ⟨rfl, h⟩
  | @cons day file days directory hfile _ ih =>
      rw [List.map_append, List.map_cons] at hdistinct
      have hnew : day.2.date ∉ done.map (·.2.date) :=
        fun hmem => (List.nodup_append.mp hdistinct).2.2 _ hmem _ (List.mem_cons_self ..) rfl
      obtain ⟨hregistry, hstored⟩ := h.step hr (hdays day (List.mem_cons_self ..)) hfile hnew
      rw [List.foldl_cons]
      generalize VfdaySource.scanFile (source, r) file = next at hregistry hstored
      obtain ⟨source', r'⟩ := next
      have hregistry : r' = r := hregistry
      subst hregistry
      rw [List.append_cons]
      refine ih (fun day' hday' => hdays day' (List.mem_cons_of_mem _ hday')) ?_ hstored
      rw [List.map_append, List.map_append, List.map_singleton, List.append_assoc]
      exact hdistinct

/-- **The scan** of the files of distinct days leaves the registry as it is. -/
theorem stored_of_scan {r : InstrumentRegistry} (hr : r.Sound) {days : List (String × MemorySessionData)}
    {directory : List (String × Bytes)} (hfiles : List.Forall₂ FileOf days directory)
    (hdays : ∀ day ∈ days, Storable r day.2) (hdistinct : (days.map (·.2.date)).Nodup) :
    (VfdaySource.scan directory r).2 = r ∧ Stored r days (VfdaySource.scan directory r).1 := by
  have hnew : Stored r [] {} := ⟨rfl, rfl, .nil⟩
  have hdistinct' : (([] ++ days : List (String × MemorySessionData)).map (·.2.date)).Nodup := hdistinct
  exact hnew.run hr hfiles hdays hdistinct'

/-! ## Sources -/

/-- The store answers as `ds` does: it lists its dates, never throws, opens nothing again and registers nothing. -/
structure VfdaySource.Serves (disk : String → Option Bytes) (source : VfdaySource) (r : InstrumentRegistry)
    (ds : DataSource) : Prop where
  sessions : ds.sessions = source.sessions
  load : ∀ date, ∃ found answer, source.load disk r date = (.ok found, source, r) ∧ ds.load date = .ok answer ∧
    Option.Rel (fun v d => v.Serves r d) found answer

/-- The sessions as a source in memory holds them. -/
def inMemory (r : InstrumentRegistry) (days : List (String × MemorySessionData)) : MemoryDataSource :=
  days.foldl (fun m day => m.addSession day.2) { registry := r }

/-- The session of a date, where there is one. -/
def dayOf (days : List (String × MemorySessionData)) (d : Date) : Option (String × MemorySessionData) :=
  days.find? (fun day => day.2.date = d)

theorem load_foldl_addSession {days : List (String × MemorySessionData)} (hdistinct : (days.map (·.2.date)).Nodup)
    (m : MemoryDataSource) (d : Date) :
    (days.foldl (fun m day => m.addSession day.2) m).load d =
      ((dayOf days d).map (·.2)).or (m.load d) := by
  induction days generalizing m with
  | nil => rfl
  | cons day days ih =>
      obtain ⟨hnew, hdistinct⟩ := List.nodup_cons.mp (List.map_cons .. ▸ hdistinct)
      rw [List.foldl_cons, ih hdistinct]
      have hadd : (m.addSession day.2).load d = if d = day.2.date then some day.2 else m.load d := by
        unfold MemoryDataSource.load MemoryDataSource.addSession
        dsimp only
        rw [MemoryDataSource.lookup_insertSession]
        have hdate : d.yyyymmdd = day.2.date.yyyymmdd ↔ d = day.2.date := by
          obtain ⟨x⟩ := d
          exact (Date.mk.injEq x _).symm.to_iff
        simp only [hdate]
      unfold dayOf at *
      rw [hadd, List.find?_cons]
      by_cases hd : day.2.date = d
      · -- no later day has this date
        have hnone : days.find? (fun day => day.2.date = d) = none := by
          rw [List.find?_eq_none]
          intro other hother heq
          refine hnew (List.mem_map.mpr ⟨other, hother, ?_⟩)
          exact (of_decide_eq_true heq).trans hd.symm
        simp [hd, hnone]
      · have hne : d ≠ day.2.date := fun h => hd h.symm
        simp [hd, hne]

theorem sessions_foldl_addSession (days : List (String × MemorySessionData)) (m : MemoryDataSource) :
    (days.foldl (fun m day => m.addSession day.2) m).sessions =
      (days.map (·.2.date)).foldl (fun out d => InstrumentRegistry.insertDate d out) m.sessions := by
  induction days generalizing m with
  | nil => rfl
  | cons day days ih => rw [List.foldl_cons, ih, MemoryDataSource.sessions_addSession, List.map_cons, List.foldl_cons]

theorem Stored.sessions {r : InstrumentRegistry} {days : List (String × MemorySessionData)} {source : VfdaySource}
    (h : Stored r days source) : source.sessions = (inMemory r days).sessions := by
  unfold VfdaySource.sessions inMemory
  rw [sessions_foldl_addSession, h.files, List.map_map]
  rfl

/-- What the scan has kept is found by its date. -/
theorem lookup_kept {r : InstrumentRegistry} {days : List (String × MemorySessionData)}
    {cache : List (Int32 × VfdaySession)} (h : List.Forall₂ (KeepsDay r) days cache) (d : Date) :
    Option.Rel (fun day v => v.Serves r day.2.session.stored) (dayOf days d) (cache.lookup d.yyyymmdd) := by
  induction h with
  | nil => exact .none
  | @cons day kept days cache hday _ ih =>
      obtain ⟨hkey, hserves⟩ := hday
      unfold dayOf at *
      obtain ⟨key, v⟩ := kept
      have hkey : key = day.2.date.yyyymmdd := hkey
      rw [List.find?_cons, MemoryDataSource.lookup_cons_eq]
      by_cases hd : day.2.date = d
      · rw [if_pos (hkey.trans (congrArg Date.yyyymmdd hd)).symm, decide_eq_true hd]
        exact .some hserves
      · have hne : d.yyyymmdd ≠ key := by
          rw [hkey]
          exact fun heq => hd ((Date.mk.injEq .. ▸ heq.symm : day.2.date = d))
        rw [if_neg hne, decide_eq_false hd]
        exact ih

/-- The day of a date is one of the days. -/
theorem dayOf_mem {days : List (String × MemorySessionData)} {d : Date} {day : String × MemorySessionData}
    (h : dayOf days d = some day) : day ∈ days := List.mem_of_find?_eq_some h

/-- What a run is given of a store of the days. -/
def storedSource (r : InstrumentRegistry) (days : List (String × MemorySessionData)) : DataSource where
  sessions := (inMemory r days).sessions
  load d := .ok ((dayOf days d).map (fun day => day.2.session.stored))

theorem Stored.serves {r : InstrumentRegistry} {days : List (String × MemorySessionData)} {source : VfdaySource}
    (h : Stored r days source) (disk : String → Option Bytes) : source.Serves disk r (storedSource r days) := by
  refine ⟨h.sessions.symm, fun d => ?_⟩
  have hfound := lookup_kept h.cache d
  refine ⟨source.cache.lookup d.yyyymmdd, (dayOf days d).map (fun day => day.2.session.stored), ?_, rfl, ?_⟩
  · unfold VfdaySource.load
    cases hlookup : source.cache.lookup d.yyyymmdd with
    | some v => rfl
    | none =>
        -- a date that is not kept has no file either
        have hnone : dayOf days d = none := by
          rw [hlookup] at hfound
          generalize dayOf days d = day at hfound
          cases hfound
          rfl
        have hfiles : source.files.lookup d.yyyymmdd = none := by
          rw [← Option.not_isSome_iff_eq_none, List.lookup_isSome_iff, h.files]
          rintro ⟨p, hp, hkey⟩
          obtain ⟨other, hother, rfl⟩ := List.mem_map.mp hp
          have hno := List.find?_eq_none.mp hnone other hother
          exact hno (decide_eq_true (Date.mk.injEq .. ▸ (beq_iff_eq.mp hkey).symm))
        dsimp only
        rw [hfiles]
  · generalize source.cache.lookup d.yyyymmdd = found at hfound
    cases hday : dayOf days d with
    | none =>
        rw [hday] at hfound
        cases hfound
        exact .none
    | some day =>
        rw [hday] at hfound
        cases hfound with
        | some hserves => exact .some hserves

/-- The store and the memory are sources of the same sessions. -/
theorem storedSource_same {r : InstrumentRegistry} {days : List (String × MemorySessionData)}
    (hdays : ∀ day ∈ days, Storable r day.2) (hdistinct : (days.map (·.2.date)).Nodup) :
    (inMemory r days).source.Same (storedSource r days) := by
  refine ⟨rfl, fun d => .ok ?_⟩
  have hload : (inMemory r days).load d = (dayOf days d).map (·.2) := by
    unfold inMemory
    rw [load_foldl_addSession hdistinct]
    exact Option.or_none
  rw [hload]
  cases hday : dayOf days d with
  | none => exact .none
  | some day => exact .some (hdays day (dayOf_mem hday)).same

/-- **A store is transparent.** Sessions of distinct dates, built in memory over one registry, are written to files,
    and the directory of the files is scanned into that registry. Nothing is reported amiss, no contract is
    registered, every date loads without a file being opened again, and whatever the strategy, a backtest over the store
    gives the result of the backtest over memory. -/
theorem store_is_transparent {F : Type} [Double F] {r : InstrumentRegistry} (hr : r.Reachable)
    {days : List (String × MemorySessionData)} (hdays : ∀ day ∈ days, Storable r day.2)
    (hdistinct : (days.map (·.2.date)).Nodup) :
    (∀ day ∈ days, ∃ bytes, writeVfday day.2.session = .ok bytes) ∧
    ∀ directory : List (String × Bytes), List.Forall₂ FileOf days directory →
      ∃ source, VfdaySource.scan directory r = (source, r) ∧ source.problems = [] ∧
        ∀ disk, ∃ ds, source.Serves disk r ds ∧
          ∀ underlying spot (strategy : Strategy F) config dates,
            runBacktest ds underlying spot strategy config dates =
              runBacktest (inMemory r days).source underlying spot strategy config dates := by
  refine ⟨fun day hday => ?_, fun directory hfiles => ?_⟩
  · obtain ⟨file, _, hwrite⟩ := exists_fileOf (hdays day hday)
    exact ⟨file.2, hwrite⟩
  · obtain ⟨hregistry, hstored⟩ := stored_of_scan hr.sound hfiles hdays hdistinct
    refine ⟨_, Prod.ext rfl hregistry, hstored.problems, fun disk => ⟨_, hstored.serves disk, ?_⟩⟩
    exact fun underlying spot strategy config dates =>
      runBacktest_same (storedSource_same hdays hdistinct) underlying spot strategy config dates

/-- A day of two rows of one instrument, in memory. -/
def flatDay : MemorySessionData where
  date := ⟨20250701⟩
  registry := (flatSession ⟨20250701⟩ [1, 2]).registry
  series := [(0, flatQuotes [1, 2])]
  instruments := [0]
  total := 2

theorem flatDay_session : flatDay.session = flatSession ⟨20250701⟩ [1, 2] := by
  have hquotes : flatDay.quotes = (flatSession ⟨20250701⟩ [1, 2]).quotes := by
    funext id
    show (List.lookup id [(0, flatQuotes [1, 2])]).getD {} = if id = 0 then flatQuotes [1, 2] else {}
    rw [List.lookup_cons, List.lookup_nil]
    by_cases h : id = 0
    · rw [if_pos h, beq_iff_eq.mpr h]
      rfl
    · rw [if_neg h, beq_eq_false_iff_ne.mpr h]
      rfl
  unfold MemorySessionData.session
  rw [hquotes]
  rfl

theorem flatDay_storable : Storable (flatSession ⟨20250701⟩ [1, 2]).registry flatDay where
  built := by
    have hrun : ([.append 0 ((flatQuotes [1, 2]).atRow 0), .append 0 ((flatQuotes [1, 2]).atRow 1)] :
        List MemorySessionData.Op).foldlM MemorySessionData.apply
          { date := ⟨20250701⟩, registry := (flatSession ⟨20250701⟩ [1, 2]).registry } = .ok flatDay := rfl
    exact .of_run .init hrun
  rows id := by
    have hc : (flatSession ⟨20250701⟩ [1, 2]).Contract := flatSession_contract _ (by decide) (by decide)
    rw [← flatDay_session] at hc
    exact hc.located id
  registered := flatDay_session ▸ flatSession_registered _ _
  fits := flatDay_session ▸ flatSession_fitsFormat _ (by decide)
  times := by
    rw [flatDay_session]
    decide +kernel
  timed := by
    rw [flatDay_session]
    rintro t ⟨id, hid, i, hi, rfl⟩
    obtain rfl := List.mem_singleton.mp hid
    have hi : i < 2 := hi
    interval_cases i <;> decide

/-- One day on disk. -/
theorem store_is_transparent_flat : ∃ bytes source,
    writeVfday (flatSession ⟨20250701⟩ [1, 2]) = .ok bytes ∧
      VfdaySource.scan [("2025-07-01.vfday", bytes)] (flatSession ⟨20250701⟩ [1, 2]).registry =
        (source, (flatSession ⟨20250701⟩ [1, 2]).registry) ∧ source.problems = [] := by
  have hreachable : (flatSession ⟨20250701⟩ [1, 2]).registry.Reachable := .add (.intern .empty [78]) _
  have hdays : ∀ day ∈ [("2025-07-01.vfday", flatDay)], Storable (flatSession ⟨20250701⟩ [1, 2]).registry day.2 := by
    simpa using flatDay_storable
  obtain ⟨hwritten, hscanned⟩ := store_is_transparent (F := ℚ) hreachable hdays (by simp)
  obtain ⟨bytes, hwrite⟩ := hwritten _ (List.mem_singleton.mpr rfl)
  obtain ⟨source, hscan, hproblems, _⟩ := hscanned [("2025-07-01.vfday", bytes)] (.cons ⟨rfl, hwrite⟩ .nil)
  exact ⟨bytes, source, flatDay_session ▸ hwrite, hscan, hproblems⟩

end Volforge
