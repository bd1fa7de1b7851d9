import Volforge.Adapters.Correctness.Loaded
import Volforge.Examples.Convert

/-!
# `Examples.Correctness.Convert` — what a conversion leaves behind

The output directory over any number of conversions: what its files hold, what a conversion that is run again does
to it, and which archives end up in it. A run ends early where an exception leaves `main`: when the file system has no
size for an archive whose day was written.

## Contents
- **Files.** `putFile` and `removeFile`.
- **One archive.** `convertArchive_cases` says everything a turn of the loop can do.
- **Histories of conversions.** Every file holds its archive's day: `conversions_are_sound`.
- **Resumption.** A conversion that is run again picks up where it stopped: `conversion_resumes`.
- **Completeness.** On a disk that keeps what it is given, only archives without a day fail.
-/

namespace Volforge.Convert

open Gfdl IdTable

/-! ## Files -/

theorem mem_putFile {name : String} {content : Bytes} {outdir : List (String × Bytes)} {file : String × Bytes}
    (h : file ∈ putFile name content outdir) : file = (name, content) ∨ file ∈ outdir := by
  rcases List.mem_append.mp h with hold | hnew
  · exact .inr (List.mem_filter.mp hold).1
  · exact .inl (List.mem_singleton.mp hnew)

theorem nodup_removeFile (name : String) {outdir : List (String × Bytes)} (h : (outdir.map (·.1)).Nodup) :
    ((removeFile name outdir).map (·.1)).Nodup := h.sublist (List.filter_sublist.map _)

theorem nodup_putFile (name : String) (content : Bytes) {outdir : List (String × Bytes)} (h : (outdir.map (·.1)).Nodup) :
    ((putFile name content outdir).map (·.1)).Nodup := by
  unfold putFile
  rw [List.map_append, List.nodup_append]
  refine ⟨nodup_removeFile name h, List.nodup_singleton _, ?_⟩
  rintro _ hold _ hnew rfl
  obtain ⟨file, hfile, heq⟩ := List.mem_map.mp hold
  exact of_decide_eq_true (List.mem_filter.mp hfile).2 (heq.trans (List.mem_singleton.mp hnew))

/-- The directory has a file of this name. -/
def Has (outdir : List (String × Bytes)) (name : String) : Prop := name ∈ outdir.map (·.1)

theorem has_iff {outdir : List (String × Bytes)} {name : String} : (outdir.lookup name).isSome = true ↔ Has outdir name := by
  rw [List.lookup_isSome_iff, Has, List.mem_map]
  exact exists_congr (fun file => and_congr_right (fun _ => beq_iff_eq.trans eq_comm))

theorem removeFile_of_not_has {outdir : List (String × Bytes)} {name : String} (h : ¬ Has outdir name) :
    removeFile name outdir = outdir :=
  List.filter_eq_self.mpr (fun file hfile => decide_eq_true (fun heq => h (List.mem_map.mpr ⟨file, hfile, heq⟩)))

theorem has_putFile {outdir : List (String × Bytes)} {name name' : String} {content : Bytes}
    (h : name' = name ∨ Has outdir name') : Has (putFile name content outdir) name' := by
  unfold Has putFile
  rw [List.map_append, List.mem_append]
  by_cases heq : name' = name
  · exact .inr (List.mem_singleton.mpr heq)
  · obtain ⟨file, hfile, hname⟩ := List.mem_map.mp (h.resolve_left heq)
    exact .inl (List.mem_map.mpr ⟨file, List.mem_filter.mpr ⟨hfile, decide_eq_true (fun h' => heq (hname.symm.trans h'))⟩, hname⟩)

/-! ## One archive -/

/-- The archive holds a day with rows. -/
structure Loads (options : GfdlLoadOptions) (a : Archive) (r : InstrumentRegistry) (day : GfdlDay)
    (session : MemorySessionData) : Prop where
  load : loadDay options a = .ok (r, day)
  session : day.session = some session
  rows : day.rowsRead ≠ 0

/-- The bytes that are read of an archive. -/
def Archive.bytes (a : Archive) : Nat :=
  match a.input with
  | .zip members => archiveBytes members
  | .csvDirectory files => directoryBytes files
  | .unreadable _ => 0

theorem Loads.loaded {options : GfdlLoadOptions} {a : Archive} {r : InstrumentRegistry} {day : GfdlDay}
    {session : MemorySessionData} (h : Loads options a r day session) :
    day.rowsRead ≤ a.bytes ∧ LoadedDay options.lotSize r day session := by
  have hload := h.load
  unfold loadDay at hload
  unfold Archive.bytes
  cases hinput : a.input with
  | zip members =>
      rw [hinput] at hload
      obtain ⟨hrows, hsession⟩ := loadGfdlZip_loaded InstrumentRegistry.sound_empty InstrumentRegistry.closed_empty
        (InstrumentRegistry.optionsOf_empty _) hload
      exact ⟨hrows, hsession session h.session⟩
  | csvDirectory files =>
      rw [hinput] at hload
      obtain ⟨hrows, hsession⟩ := loadGfdlDay_loaded InstrumentRegistry.sound_empty InstrumentRegistry.closed_empty
        (InstrumentRegistry.optionsOf_empty _) hload
      exact ⟨hrows, hsession session h.session⟩
  | unreadable e =>
      rw [hinput] at hload
      cases hload

/-- The file system has a size for the archive: it is a regular file. -/
def Archive.Sized (a : Archive) : Prop := ∃ n, a.fileSize = .ok n

namespace Conversion

variable (a : Archive) (day : GfdlDay) (stats : VfdayStats) (s : Conversion)

@[simp] theorem countDay_outdir : (countDay a day stats s).outdir = s.outdir := by
  unfold countDay
  cases a.fileSize <;> rfl

@[simp] theorem countDay_skipped : (countDay a day stats s).skipped = s.skipped := by
  unfold countDay
  cases a.fileSize <;> rfl

@[simp] theorem countDay_failed : (countDay a day stats s).failed = s.failed := by
  unfold countDay
  cases a.fileSize <;> rfl

variable {a}

/-- A day whose archive has a size is counted. -/
theorem countDay_of_sized (h : a.Sized) :
    (countDay a day stats s).converted = s.converted + 1 ∧ (countDay a day stats s).thrown = s.thrown := by
  obtain ⟨n, hn⟩ := h
  unfold countDay
  rw [hn]
  exact ⟨rfl, rfl⟩

end Conversion

section

variable {o : Options} {disk : String → Bytes → Bytes}

/-- What a turn of the loop can do. -/
inductive Turn (o : Options) (disk : String → Bytes → Bytes) (s : Conversion) (a : Archive) : Conversion → Prop where
  /-- The loop was left before. -/
  | halted (hthrown : s.thrown.isSome = true) : Turn o disk s a s
  /-- The archive does not load, or has no rows. -/
  | refused (p : Problem) (hnone : ∀ r day session, ¬ Loads o.load a r day session) : Turn o disk s a (s.fail p)
  | skipped {r : InstrumentRegistry} {day : GfdlDay} {session : MemorySessionData} (h : Loads o.load a r day session)
      (hforce : o.force = false) (hhas : Has s.outdir (outName day.date)) : Turn o disk s a { s with skipped := s.skipped + 1 }
  | lost {r : InstrumentRegistry} {day : GfdlDay} {session : MemorySessionData} (h : Loads o.load a r day session)
      (hnew : o.force = true ∨ ¬ Has s.outdir (outName day.date)) (p : Problem) {e : Error}
      (hwrite : writeDay (disk (outName day.date)) session.session (outName day.date) o.verify = .error e) :
      Turn o disk s a { s.fail p with outdir := removeFile (outName day.date) s.outdir }
  | written {r : InstrumentRegistry} {day : GfdlDay} {session : MemorySessionData} (h : Loads o.load a r day session)
      (hnew : o.force = true ∨ ¬ Has s.outdir (outName day.date)) {content : Bytes} {stats : VfdayStats}
      (hwrite : writeDay (disk (outName day.date)) session.session (outName day.date) o.verify = .ok (content, stats)) :
      Turn o disk s a
        (Conversion.countDay a day stats { s with outdir := putFile (outName day.date) content s.outdir })

theorem convertArchive_cases (s : Conversion) (a : Archive) : Turn o disk s a (s.convertArchive o disk a) := by
  unfold Conversion.convertArchive
  by_cases hthrown : s.thrown.isSome = true
  · rw [if_pos hthrown]
    exact .halted hthrown
  rw [if_neg hthrown]
  cases hload : loadDay o.load a with
  | error e =>
      refine .refused _ (fun r day session h => ?_)
      rw [h.load] at hload
      cases hload
  | ok loaded =>
      obtain ⟨r, day⟩ := loaded
      dsimp only
      cases hsession : day.session with
      | none =>
          refine .refused _ (fun r' day' session h => ?_)
          have hsome := h.session
          rw [h.load] at hload
          cases hload
          rw [hsession] at hsome
          cases hsome
      | some session =>
          dsimp only
          by_cases hrows : day.rowsRead = 0
          · rw [if_pos hrows]
            refine .refused _ (fun r' day' session' h => ?_)
            have hsome := h.rows
            rw [h.load] at hload
            cases hload
            exact hsome hrows
          · rw [if_neg hrows]
            have h : Loads o.load a r day session := ⟨hload, hsession, hrows⟩
            unfold Conversion.convertDay
            dsimp only
            by_cases hskip : (!o.force && (s.outdir.lookup (outName day.date)).isSome) = true
            · rw [if_pos hskip]
              rw [Bool.and_eq_true, Bool.not_eq_true'] at hskip
              exact .skipped h hskip.1 (has_iff.mp hskip.2)
            · rw [if_neg hskip]
              rw [Bool.and_eq_true, Bool.not_eq_true', not_and_or, Bool.not_eq_false, has_iff] at hskip
              cases hwrite : writeDay (disk (outName day.date)) session.session (outName day.date) o.verify with
              | error e => exact .lost h hskip _ hwrite
              | ok written => exact .written h hskip hwrite

/-- As long as the sizes of the archives can be asked for, the loop is not left. -/
theorem convertArchive_thrown {s : Conversion} (hs : s.thrown = none) {a : Archive} (hsized : a.Sized) :
    (s.convertArchive o disk a).thrown = none := by
  have hturn : Turn o disk s a (s.convertArchive o disk a) := convertArchive_cases s a
  generalize s.convertArchive o disk a = s' at hturn ⊢
  cases hturn with
  | halted _ => exact hs
  | refused p _ => exact hs
  | skipped _ _ _ => exact hs
  | lost _ _ p _ => exact hs
  | @written r day session _ _ content stats _ => exact (Conversion.countDay_of_sized day stats _ hsized).2.trans hs

end

/-! ## Histories of conversions -/

/-- One run of the program. -/
structure Job where
  options : Options
  /-- What a path holds once a file has been written there. -/
  disk : String → Bytes → Bytes
  archives : List Archive

/-- The output directory after these runs. -/
def convertAll (jobs : List Job) (outdir : List (String × Bytes)) : List (String × Bytes) :=
  jobs.foldl (fun outdir job => (convert job.options job.disk job.archives outdir).outdir) outdir

/-- The session is the day of one of the archives, under its date. -/
def Origin (jobs : List Job) (session : SessionData) : Prop :=
  ∃ job ∈ jobs, ∃ a ∈ job.archives, ∃ r day loaded, Loads job.options.load a r day loaded ∧ loaded.session = session ∧
    session.date = day.date

/-- Every file of the directory was verified to hold a session that keeps `P`, and is named by its date. -/
structure Kept (lot : Int32) (P : SessionData → Prop) (outdir : List (String × Bytes)) : Prop where
  names : (outdir.map (·.1)).Nodup
  files : ∀ file ∈ outdir, ∃ session, P session ∧ file.1 = outName session.date ∧ VerifiedFile lot file session

theorem kept_nil (lot : Int32) (P : SessionData → Prop) : Kept lot P [] := ⟨List.nodup_nil, nofun⟩

theorem Kept.remove {lot : Int32} {P : SessionData → Prop} {outdir : List (String × Bytes)} (h : Kept lot P outdir)
    (name : String) : Kept lot P (removeFile name outdir) :=
  ⟨nodup_removeFile name h.names, fun file hfile => h.files file (List.mem_filter.mp hfile).1⟩

/-- A file that passes its verification holds what was loaded. -/
theorem verifiedFile_of_writeDay {options : GfdlLoadOptions} {a : Archive} {r : InstrumentRegistry} {day : GfdlDay}
    {loaded : MemorySessionData} (h : Loads options a r day loaded) (hsmall : a.bytes < 2 ^ 32) {disk : Bytes → Bytes}
    {name : String} {content : Bytes} {stats : VfdayStats}
    (hwrite : writeDay disk loaded.session name true = .ok (content, stats)) :
    VerifiedFile options.lotSize (name, content) loaded.session := by
  obtain ⟨hrows, hloaded⟩ := h.loaded
  have hc := hloaded.contract (lt_of_le_of_lt hrows hsmall)
  unfold writeDay at hwrite
  obtain ⟨file, hfile, hwrite⟩ := Run.bind_eq_ok.mp hwrite
  obtain ⟨stats', hverify, hwrite⟩ := Run.bind_eq_ok.mp hwrite
  cases hwrite
  obtain ⟨file', s, r', hfile', hopen, hverified⟩ := verified_of_writeVerified hc hverify
  rw [hfile] at hfile'
  cases hfile'
  have hlots : loaded.session.registry.OptionsOf options.lotSize := by
    rw [show loaded.session.registry = r from hloaded.same]
    exact hloaded.lots
  exact ⟨hlots, s, r', hopen, hverified⟩

/-- The step lemma of a conversion. -/
theorem Kept.step {o : Options} (hverify : o.verify = true) {disk : String → Bytes → Bytes} {P : SessionData → Prop}
    {s : Conversion} (h : Kept o.load.lotSize P s.outdir) {a : Archive} (hsmall : a.bytes < 2 ^ 32)
    (horigin : ∀ r day loaded, Loads o.load a r day loaded → loaded.session.date = day.date → P loaded.session) :
    Kept o.load.lotSize P (s.convertArchive o disk a).outdir := by
  have hturn : Turn o disk s a (s.convertArchive o disk a) := convertArchive_cases s a
  generalize s.convertArchive o disk a = s' at hturn ⊢
  cases hturn with
  | halted _ => exact h
  | refused p hnone => exact h
  | skipped hloads hforce hhas => exact h
  | lost hloads hnew p hwrite => exact h.remove _
  | @written r day loaded hloads hnew content stats hwrite =>
      rw [Conversion.countDay_outdir]
      have hdate : loaded.session.date = day.date := hloads.loaded.2.date
      refine ⟨nodup_putFile _ _ h.names, fun file hfile => ?_⟩
      rcases mem_putFile hfile with rfl | hold
      · rw [hverify] at hwrite
        exact ⟨loaded.session, horigin r day loaded hloads hdate, by rw [hdate],
          verifiedFile_of_writeDay hloads hsmall hwrite⟩
      · exact h.files file hold

/-- The run lemma of a history. -/
theorem kept_convertAll {lot : Int32} {jobs : List Job} (hverify : ∀ job ∈ jobs, job.options.verify = true)
    (hlot : ∀ job ∈ jobs, job.options.load.lotSize = lot) (hsmall : ∀ job ∈ jobs, ∀ a ∈ job.archives, a.bytes < 2 ^ 32) :
    Kept lot (Origin jobs) (convertAll jobs []) := by
  refine Run.foldl_inv (Kept lot (Origin jobs)) jobs (fun outdir job hjob hkept => ?_) (kept_nil lot _)
  refine Run.foldl_inv (fun s : Conversion => Kept lot (Origin jobs) s.outdir) job.archives (fun s a ha hs => ?_) hkept
  rw [← hlot job hjob] at hs ⊢
  exact hs.step (hverify job hjob) (hsmall job hjob a ha)
    (fun r day loaded hloads hdate => ⟨job, hjob, a, ha, r, day, loaded, hloads, rfl, hdate⟩)

/-- **Conversions are sound.** After any history of verified conversions with one lot size, forced or not, brought to
    their end or not, whatever the disk did to the files, a store finds no problem in the output directory and serves
    each of its days: the instruments that print, with the terms that are compared (all but the tick size) and their
    columns, as an archive of that date had them. -/
theorem conversions_are_sound {lot : Int32} {jobs : List Job} (hverify : ∀ job ∈ jobs, job.options.verify = true)
    (hlot : ∀ job ∈ jobs, job.options.load.lotSize = lot) (hsmall : ∀ job ∈ jobs, ∀ a ∈ job.archives, a.bytes < 2 ^ 32)
    {directory : List (String × Bytes)} (hdirectory : directory.Perm (convertAll jobs [])) :
    ∃ days : List ((String × Bytes) × SessionData), days.map (·.1) = directory ∧
      (∀ day ∈ days, Origin jobs day.2 ∧ day.1.1 = outName day.2.date) ∧
      ∃ source r, VfdaySource.scan directory {} = (source, r) ∧ source.problems = [] ∧
        (∀ d, d ∈ source.sessions ↔ ∃ day ∈ days, day.2.date = d) ∧
        ∀ day ∈ days, ∀ disk, ∃ v, source.load disk r day.2.date = (.ok (some v), source, r) ∧ Verified day.2 v r := by
  have hkept := kept_convertAll hverify hlot hsmall
  obtain ⟨sessions, hsessions⟩ := exists_related (fun file hfile => hkept.files file (hdirectory.subset hfile))
  have hlen := hsessions.length_eq
  have hfirst : (directory.zip sessions).map (·.1) = directory := List.map_fst_zip (le_of_eq hlen)
  have hall : ∀ day ∈ directory.zip sessions, Origin jobs day.2 ∧ day.1.1 = outName day.2.date ∧ VerifiedFile lot day.1 day.2 := by
    rintro ⟨file, session⟩ hday
    exact List.forall₂_zip hsessions hday
  have hnames : ((directory.zip sessions).map (fun day => outName day.2.date)).Nodup := by
    have hperm := (hdirectory.map (·.1)).nodup_iff.mpr hkept.names
    rw [← hfirst, List.map_map] at hperm
    rwa [List.map_congr_left (fun day hday => (hall day hday).2.1.symm)]
  -- days of one date would have one name
  have hdistinct : ((directory.zip sessions).map (·.2.date)).Nodup :=
    List.Nodup.of_map outName (by rw [List.map_map]; exact hnames)
  have hshelf := shelf_of_scan InstrumentRegistry.sound_empty (InstrumentRegistry.optionsOf_empty lot)
    (fun day hday => (hall day hday).2.2) hdistinct
  rw [hfirst] at hshelf
  exact ⟨_, hfirst, fun day hday => ⟨(hall day hday).1, (hall day hday).2.1⟩, _, _, rfl, hshelf.problems,
    hshelf.mem_sessions, fun day hday disk => hshelf.load hdistinct hday disk⟩

/-- An archive of one day of January, with one contract. -/
def dayZip (day : String) : Archive where
  path := text ("GFDLNFO_TICK_" ++ day ++ "012026.zip")
  input := .zip
    [(text "NIFTY27JAN2627250CE.csv", some (text
        ("X," ++ day ++ "/01/2026,09:15:00,1.4,1.35,69940,1.4,54730,0,256360\nX," ++ day ++
          "/01/2026,09:15:02,1.45,1.4,69940,1.5,54730,75,256360\n")))]
  fileSize := .ok 2048

/-- A conversion of two days, on a disk that keeps what it is given. -/
def januaryJob : Job where
  options := {}
  disk := fun _ file => file
  archives := [dayZip "22", dayZip "23"]

/-- A forced one of the first of them. -/
def forcedJob : Job := { januaryJob with options := { force := true }, archives := [dayZip "22"] }

set_option maxRecDepth 20000 in
/-- A conversion of two archives and a forced one. -/
theorem conversions_are_sound_two : ∃ days : List ((String × Bytes) × SessionData),
    days.map (·.1.1) = ["2026-01-23.vfday", "2026-01-22.vfday"] ∧
      ∃ source r, VfdaySource.scan (convertAll [januaryJob, forcedJob] []) {} = (source, r) ∧ source.problems = [] ∧
        ∀ day ∈ days, ∀ disk, ∃ v, source.load disk r day.2.date = (.ok (some v), source, r) ∧ Verified day.2 v r := by
  have hlot : ∀ job ∈ [januaryJob, forcedJob], job.options.load.lotSize = 75 := by decide
  obtain ⟨days, hdays, _, source, r, hscan, hproblems, _, hload⟩ :=
    conversions_are_sound (by decide) hlot (by decide +kernel) (.refl _)
  refine ⟨days, ?_, source, r, hscan, hproblems, hload⟩
  have hnames : (convertAll [januaryJob, forcedJob] []).map (·.1) = ["2026-01-23.vfday", "2026-01-22.vfday"] := by
    decide +kernel
  rw [← hdays, List.map_map] at hnames
  exact hnames

/-! ## Resumption -/

section

variable {o : Options} {disk : String → Bytes → Bytes}

theorem Loads.unique {options : GfdlLoadOptions} {a : Archive} {r r' : InstrumentRegistry} {day day' : GfdlDay}
    {session session' : MemorySessionData} (h : Loads options a r day session) (h' : Loads options a r' day' session') :
    r = r' ∧ day = day' ∧ session = session' := by
  have hload := h.load.symm.trans h'.load
  simp only [Except.ok.injEq, Prod.mk.injEq] at hload
  obtain ⟨rfl, rfl⟩ := hload
  exact ⟨rfl, rfl, Option.some.inj (h.session.symm.trans h'.session)⟩

/-- Without force the archive has nothing to add to the directory: its day is there, or cannot be written. -/
def Settled (o : Options) (disk : String → Bytes → Bytes) (outdir : List (String × Bytes)) (a : Archive) : Prop :=
  ∀ r day session, Loads o.load a r day session → Has outdir (outName day.date) ∨
    ∃ e, writeDay (disk (outName day.date)) session.session (outName day.date) o.verify = .error e

theorem Settled.mono {outdir outdir' : List (String × Bytes)} {a : Archive} (h : Settled o disk outdir a)
    (hnames : ∀ name, Has outdir name → Has outdir' name) : Settled o disk outdir' a :=
  fun r day session hloads => (h r day session hloads).imp_left (hnames _)

/-- Without force a turn keeps every file there is, and leaves its archive settled. -/
theorem settles (hforce : o.force = false) (disk : String → Bytes → Bytes) {s : Conversion} (hs : s.thrown = none)
    (a : Archive) :
    (∀ name, Has s.outdir name → Has (s.convertArchive o disk a).outdir name) ∧
      Settled o disk (s.convertArchive o disk a).outdir a := by
  have hturn : Turn o disk s a (s.convertArchive o disk a) := convertArchive_cases s a
  generalize s.convertArchive o disk a = s' at hturn ⊢
  cases hturn with
  | halted hthrown =>
      rw [hs] at hthrown
      cases hthrown
  | refused p hnone => exact ⟨fun name h => h, fun r day session h => absurd h (hnone r day session)⟩
  | @skipped r day session h _ hhas =>
      refine ⟨fun name h => h, fun r' day' session' h' => ?_⟩
      obtain ⟨_, rfl, _⟩ := h.unique h'
      exact .inl hhas
  | @lost r day session h hnew p e hwrite =>
      rw [hforce, or_iff_right Bool.false_ne_true] at hnew
      dsimp only
      rw [removeFile_of_not_has hnew]
      refine ⟨fun name h => h, fun r' day' session' h' => ?_⟩
      obtain ⟨_, rfl, rfl⟩ := h.unique h'
      exact .inr ⟨e, hwrite⟩
  | @written r day session h hnew content stats hwrite =>
      rw [Conversion.countDay_outdir]
      refine ⟨fun name hhas => has_putFile (.inr hhas), fun r' day' session' h' => ?_⟩
      obtain ⟨_, rfl, _⟩ := h.unique h'
      exact .inl (has_putFile (.inl rfl))

/-- The run lemma: what was done is settled, and the loop was not left. -/
theorem settled_convert (hforce : o.force = false) (disk : String → Bytes → Bytes) (archives : List Archive)
    (hsized : ∀ a ∈ archives, a.Sized) {s : Conversion} (hs : s.thrown = none) :
    (archives.foldl (Conversion.convertArchive o disk) s).thrown = none ∧
    (∀ name, Has s.outdir name → Has (archives.foldl (Conversion.convertArchive o disk) s).outdir name) ∧
      ∀ a ∈ archives, Settled o disk (archives.foldl (Conversion.convertArchive o disk) s).outdir a := by
  induction archives generalizing s with
  | nil => exact ⟨hs, fun name h => h, nofun⟩
  | cons a archives ih =>
      obtain ⟨hkeeps, hsettled⟩ := settles hforce disk hs a
      have hreturns : (s.convertArchive o disk a).thrown = none :=
        convertArchive_thrown hs (hsized a (List.mem_cons_self ..))
      obtain ⟨hthrown, hkeeps', hsettled'⟩ := ih (fun a' ha' => hsized a' (List.mem_cons_of_mem _ ha')) hreturns
      refine ⟨hthrown, fun name h => hkeeps' name (hkeeps name h), fun a' ha' => ?_⟩
      rcases List.mem_cons.mp ha' with rfl | hrest
      · exact hsettled.mono hkeeps'
      · exact hsettled' a' hrest

/-- A turn on a settled archive converts nothing. -/
theorem convertArchive_of_settled (hforce : o.force = false) {s : Conversion} {a : Archive} (h : Settled o disk s.outdir a) :
    (s.convertArchive o disk a).outdir = s.outdir ∧ (s.convertArchive o disk a).converted = s.converted ∧
      (s.convertArchive o disk a).thrown = s.thrown := by
  have hturn : Turn o disk s a (s.convertArchive o disk a) := convertArchive_cases s a
  generalize s.convertArchive o disk a = s' at hturn ⊢
  cases hturn with
  | halted _ => exact ⟨rfl, rfl, rfl⟩
  | refused p hnone => exact ⟨rfl, rfl, rfl⟩
  | skipped _ _ _ => exact ⟨rfl, rfl, rfl⟩
  | lost _ hnew p hwrite =>
      rw [hforce, or_iff_right Bool.false_ne_true] at hnew
      exact ⟨removeFile_of_not_has hnew, rfl, rfl⟩
  | @written r day session hloads hnew content stats hwrite =>
      rw [hforce, or_iff_right Bool.false_ne_true] at hnew
      obtain ⟨e, herror⟩ := (h r day session hloads).resolve_left hnew
      rw [hwrite] at herror
      cases herror

/-- The runs are at one point of the loop over one directory; they may have counted differently. -/
structure Abreast (s s' : Conversion) : Prop where
  outdir : s'.outdir = s.outdir
  thrown : s'.thrown = s.thrown

/-- What a turn does to the directory, and how many days it converts, does not depend on what was counted before. -/
theorem Abreast.turn (o : Options) (disk : String → Bytes → Bytes) {s s' : Conversion} (h : Abreast s s') (a : Archive) :
    Abreast (s.convertArchive o disk a) (s'.convertArchive o disk a) ∧
      (s'.convertArchive o disk a).converted + s.converted = (s.convertArchive o disk a).converted + s'.converted := by
  unfold Conversion.convertArchive
  rw [h.thrown]
  split_ifs
  · exact ⟨h, Nat.add_comm ..⟩
  cases loadDay o.load a with
  | error e => exact ⟨⟨h.outdir, h.thrown⟩, Nat.add_comm ..⟩
  | ok loaded =>
      obtain ⟨r, day⟩ := loaded
      dsimp only
      cases day.session with
      | none => exact ⟨⟨h.outdir, h.thrown⟩, Nat.add_comm ..⟩
      | some session =>
          dsimp only
          unfold Conversion.convertDay
          dsimp only
          rw [h.outdir]
          split_ifs
          · exact ⟨⟨h.outdir, h.thrown⟩, Nat.add_comm ..⟩
          · exact ⟨⟨rfl, h.thrown⟩, Nat.add_comm ..⟩
          · cases writeDay (disk (outName day.date)) session.session (outName day.date) o.verify with
            | error e => exact ⟨⟨rfl, h.thrown⟩, Nat.add_comm ..⟩
            | ok written =>
                dsimp only
                unfold Conversion.countDay
                cases a.fileSize with
                | error e => exact ⟨⟨rfl, rfl⟩, Nat.add_comm ..⟩
                | ok n =>
                    dsimp only
                    exact ⟨⟨rfl, h.thrown⟩, by omega⟩

theorem Abreast.run (o : Options) (disk : String → Bytes → Bytes) (archives : List Archive) {s s' : Conversion}
    (h : Abreast s s') :
    Abreast (archives.foldl (Conversion.convertArchive o disk) s) (archives.foldl (Conversion.convertArchive o disk) s') ∧
      (archives.foldl (Conversion.convertArchive o disk) s').converted + s.converted =
        (archives.foldl (Conversion.convertArchive o disk) s).converted + s'.converted := by
  induction archives generalizing s s' with
  | nil => exact ⟨h, Nat.add_comm ..⟩
  | cons a archives ih =>
      obtain ⟨hnext, hcount⟩ := h.turn o disk a
      obtain ⟨hend, hcount'⟩ := ih hnext
      refine ⟨hend, ?_⟩
      rw [List.foldl_cons, List.foldl_cons]
      omega

/-- A run over settled archives converts nothing. -/
theorem foldl_of_settled (hforce : o.force = false) {archives : List Archive} {s : Conversion}
    (h : ∀ a ∈ archives, Settled o disk s.outdir a) :
    Abreast s (archives.foldl (Conversion.convertArchive o disk) s) ∧
      (archives.foldl (Conversion.convertArchive o disk) s).converted = s.converted := by
  refine Run.foldl_inv (fun t : Conversion => Abreast s t ∧ t.converted = s.converted) archives ?_ ⟨⟨rfl, rfl⟩, rfl⟩
  rintro t a ha ⟨habreast, hcount⟩
  obtain ⟨hout, hcount', hthrown⟩ :=
    convertArchive_of_settled hforce (habreast.outdir.symm ▸ h a ha : Settled o disk t.outdir a)
  exact ⟨⟨hout.trans habreast.outdir, hthrown.trans habreast.thrown⟩, hcount'.trans hcount⟩

/-- **A conversion resumes.** Without force, a run that stopped after some archives, all of them regular files, and is
    started again leaves the directory one run would have left, and the two convert as many days as it. -/
theorem conversion_resumes (hforce : o.force = false) (disk : String → Bytes → Bytes) {done : List Archive}
    (hsized : ∀ a ∈ done, a.Sized) (rest : List Archive) (outdir : List (String × Bytes)) :
    (convert o disk (done ++ rest) (convert o disk done outdir).outdir).outdir = (convert o disk (done ++ rest) outdir).outdir ∧
      (convert o disk done outdir).converted + (convert o disk (done ++ rest) (convert o disk done outdir).outdir).converted =
        (convert o disk (done ++ rest) outdir).converted := by
  unfold convert
  rw [List.foldl_append, List.foldl_append]
  generalize hfirst : done.foldl (Conversion.convertArchive o disk) { outdir := outdir } = first
  obtain ⟨hthrown, _, hsettled⟩ := settled_convert hforce disk done hsized (s := { outdir := outdir }) rfl
  rw [hfirst] at hthrown hsettled
  obtain ⟨hagain, hcount⟩ := foldl_of_settled hforce (s := { outdir := first.outdir }) hsettled
  have habreast : Abreast first (done.foldl (Conversion.convertArchive o disk) { outdir := first.outdir }) :=
    ⟨hagain.outdir, hagain.thrown.trans hthrown.symm⟩
  obtain ⟨hend, hcount'⟩ := habreast.run o disk rest
  refine ⟨hend.outdir, ?_⟩
  rw [hcount] at hcount'
  dsimp only at hcount'
  omega

end

set_option maxRecDepth 20000 in
/-- A conversion that stops after the first of two archives, and goes on. -/
theorem conversion_resumes_two :
    let first := convert {} januaryJob.disk [dayZip "22"] []
    let whole := convert {} januaryJob.disk ([dayZip "22"] ++ [dayZip "23"]) []
    let second := convert {} januaryJob.disk ([dayZip "22"] ++ [dayZip "23"]) first.outdir
    (second.outdir = whole.outdir ∧ first.converted + second.converted = whole.converted) ∧
      first.converted = 1 ∧ whole.converted = 2 := by
  have hsized : ∀ a ∈ [dayZip "22"], a.Sized := by
    intro a ha
    rw [List.mem_singleton.mp ha]
    exact ⟨2048, rfl⟩
  exact ⟨conversion_resumes rfl januaryJob.disk hsized [dayZip "23"] [], by decide +kernel⟩

/-- A directory of loose CSVs, where the file system has no size for a directory. -/
def looseDay : Archive where
  path := text "22012026"
  input := .csvDirectory (twoFiles "09:15:00" "09:16:00")
  fileSize := .error (.runtimeError "filesystem error: cannot get file size: Is a directory")

set_option maxRecDepth 20000 in
/-- Its day is written, and the exception leaves `main` before it is counted. -/
example :
    let s := convert {} januaryJob.disk [looseDay] []
    s.outdir.map (·.1) = ["2026-01-22.vfday"] ∧ s.converted = 0 ∧ exitCode s = none := by decide +kernel

/-! ## Completeness -/

section

variable {o : Options} {disk : String → Bytes → Bytes}

/-- A day that fits the format is written, verified or not. -/
theorem exists_writeDay {session : SessionData} (hc : session.Contract) (hreg : session.Registered)
    (hfits : session.FitsFormat) (htimeline : (timelineOf session).length < 2 ^ 32) {disk : Bytes → Bytes}
    (hdisk : ∀ file, disk file = file) (name : String) (verify : Bool) :
    ∃ content stats, writeDay disk session name verify = .ok (content, stats) := by
  obtain ⟨w, items, hw⟩ := SessionData.exists_written hc hreg hfits htimeline
  have hverified := writeVerified_of_written hc hreg hw (hdisk _) name
  unfold writeDay
  rw [hw.file, Run.ok_bind]
  cases verify with
  | true =>
      rw [hverified]
      exact ⟨_, _, rfl⟩
  | false =>
      obtain ⟨w', hloop, _⟩ := Run.bind_eq_ok.mp hw.file
      unfold writeVerified
      rw [hloop, Run.ok_bind, hw.file]
      exact ⟨_, _, rfl⟩

/-- The day of the archive, where it has one, fits the format. -/
def Fits (options : GfdlLoadOptions) (a : Archive) : Prop :=
  a.bytes < 2 ^ 32 ∧ ∀ r day session, Loads options a r day session →
    session.session.FitsFormat ∧ (timelineOf session.session).length < 2 ^ 32

theorem Fits.writes {a : Archive} (h : Fits o.load a) (hdisk : ∀ name file, disk name file = file) {r : InstrumentRegistry}
    {day : GfdlDay} {session : MemorySessionData} (hloads : Loads o.load a r day session) (name : String) (e : Error) :
    writeDay (disk name) session.session name o.verify ≠ .error e := by
  obtain ⟨hrows, hloaded⟩ := hloads.loaded
  obtain ⟨hfits, htimeline⟩ := h.2 r day session hloads
  obtain ⟨content, stats, hwrite⟩ := exists_writeDay (hloaded.contract (lt_of_le_of_lt hrows h.1)) hloaded.registered hfits
    htimeline (hdisk name) name o.verify
  rw [hwrite]
  exact nofun

/-- What a conversion has come to, over the archives it has seen. -/
structure Complete (o : Options) (seen : List Archive) (s : Conversion) : Prop where
  returns : s.thrown = none
  count : s.converted + s.skipped + s.failed = seen.length
  failed : s.failed = 0 ↔ ∀ a ∈ seen, ∃ r day session, Loads o.load a r day session
  there : ∀ a ∈ seen, ∀ r day session, Loads o.load a r day session → Has s.outdir (outName day.date)

/-- An archive that loads, and is counted without a failure. -/
theorem Complete.loads {seen : List Archive} {s s' : Conversion} (h : Complete o seen s) {a : Archive}
    {r : InstrumentRegistry} {day : GfdlDay} {session : MemorySessionData} (hloads : Loads o.load a r day session)
    (hcount : s'.converted + s'.skipped = s.converted + s.skipped + 1) (hfailed : s'.failed = s.failed)
    (hreturns : s'.thrown = none) (hkeeps : ∀ name, Has s.outdir name → Has s'.outdir name) (hhas : Has s'.outdir (outName day.date)) :
    Complete o (seen ++ [a]) s' where
  returns := hreturns
  count := by
    rw [List.length_append, List.length_singleton, ← h.count]
    omega
  failed := by
    rw [hfailed, h.failed, List.forall_mem_append, List.forall_mem_singleton]
    exact (and_iff_left ⟨r, day, session, hloads⟩).symm
  there := by
    intro a' ha' r' day' session' hloads'
    rcases List.mem_append.mp ha' with hold | hnew
    · exact hkeeps _ (h.there a' hold r' day' session' hloads')
    · obtain rfl := List.mem_singleton.mp hnew
      obtain ⟨_, rfl, _⟩ := hloads.unique hloads'
      exact hhas

/-- The step lemma of completeness. -/
theorem Complete.step (hdisk : ∀ name file, disk name file = file) {seen : List Archive} {s : Conversion}
    (h : Complete o seen s) {a : Archive} (hsized : a.Sized) (hfits : Fits o.load a) :
    Complete o (seen ++ [a]) (s.convertArchive o disk a) := by
  have hreturns : (s.convertArchive o disk a).thrown = none := convertArchive_thrown h.returns hsized
  have hturn : Turn o disk s a (s.convertArchive o disk a) := convertArchive_cases s a
  generalize s.convertArchive o disk a = s' at hreturns hturn ⊢
  cases hturn with
  | halted hthrown =>
      rw [h.returns] at hthrown
      cases hthrown
  | refused p hnone =>
      have hcount := h.count
      refine ⟨hreturns, ?_, ?_, fun a' ha' r day session hloads => ?_⟩
      · rw [List.length_append, List.length_singleton, ← h.count]
        exact (Nat.add_assoc ..).symm
      · refine iff_of_false (Nat.succ_ne_zero _) (fun hall => ?_)
        obtain ⟨r, day, session, hloads⟩ := hall a (List.mem_append_right _ (List.mem_singleton.mpr rfl))
        exact hnone r day session hloads
      · rcases List.mem_append.mp ha' with hold | hnew
        · exact h.there a' hold r day session hloads
        · rw [List.mem_singleton.mp hnew] at hloads
          exact absurd hloads (hnone r day session)
  | skipped hloads hforce hhas =>
      refine h.loads hloads ?_ rfl hreturns (fun name hname => hname) hhas
      dsimp only
      omega
  | lost hloads hnew p hwrite => exact absurd hwrite (hfits.writes hdisk hloads _ _)
  | @written r day session hloads hnew content stats hwrite =>
      refine h.loads hloads ?_ (Conversion.countDay_failed ..) hreturns (fun name hname => ?_) ?_
      · rw [Conversion.countDay_skipped, (Conversion.countDay_of_sized day stats _ hsized).1]
        dsimp only
        omega
      · rw [Conversion.countDay_outdir]
        exact has_putFile (.inr hname)
      · rw [Conversion.countDay_outdir]
        exact has_putFile (.inl rfl)

/-- **A conversion is complete.** Of regular files, on a disk that keeps what it is given, where the days fit the format:
    every archive is converted, skipped or failed, the exit code is 0 exactly when each of them holds a day with rows
    and 1 otherwise, and every such day is in the directory. -/
theorem conversion_is_complete (hdisk : ∀ name file, disk name file = file) {archives : List Archive}
    (hsized : ∀ a ∈ archives, a.Sized) (hfits : ∀ a ∈ archives, Fits o.load a) (outdir : List (String × Bytes)) :
    let s := convert o disk archives outdir
    s.converted + s.skipped + s.failed = archives.length ∧
      (exitCode s = some 0 ∨ exitCode s = some 1) ∧
      (exitCode s = some 0 ↔ ∀ a ∈ archives, ∃ r day session, Loads o.load a r day session) ∧
      ∀ a ∈ archives, ∀ r day session, Loads o.load a r day session → Has s.outdir (outName day.date) := by
  have hcomplete : Complete o archives (convert o disk archives outdir) := by
    induction archives using List.reverseRecOn with
    | nil => exact ⟨rfl, rfl, iff_of_true rfl nofun, nofun⟩
    | append_singleton done a ih =>
        have hdone := ih (fun a' ha' => hsized a' (List.mem_append_left _ ha'))
          (fun a' ha' => hfits a' (List.mem_append_left _ ha'))
        have hlast := hdone.step hdisk (hsized a (List.mem_append_right _ (List.mem_singleton.mpr rfl)))
          (hfits a (List.mem_append_right _ (List.mem_singleton.mpr rfl)))
        unfold convert at hlast ⊢
        rw [List.foldl_append]
        exact hlast
  have hexit : exitCode (convert o disk archives outdir) =
      if (convert o disk archives outdir).failed = 0 then some 0 else some 1 := by
    unfold exitCode
    rw [hcomplete.returns]
    rfl
  refine ⟨hcomplete.count, ?_, ?_, hcomplete.there⟩
  · rw [hexit]
    split_ifs
    · exact .inl rfl
    · exact .inr rfl
  · rw [← hcomplete.failed, hexit]
    by_cases hfailed : (convert o disk archives outdir).failed = 0
    · rw [if_pos hfailed]
      exact iff_of_true rfl hfailed
    · rw [if_neg hfailed]
      exact iff_of_false (by decide) hfailed

end

/-- The bounds of the format, computed. -/
def fitsCheck (s : SessionData) : Bool :=
  s.instruments.all (fun id => (encodeColumns (s.quotes id)).length < 2 ^ 32) &&
    Run.succeeds (fun w : Writer => w.table.length * TableEntry.size < 2 ^ 32 && w.strings.length < 2 ^ 32 &&
      w.directory.length * DirEntry.size < 2 ^ 32) (s.instruments.foldlM (Writer.step s) {})

theorem fitsFormat_of_check {s : SessionData} (h : fitsCheck s = true) : s.FitsFormat := by
  rw [fitsCheck, Bool.and_eq_true, List.all_eq_true] at h
  obtain ⟨hblobs, hloop⟩ := h
  obtain ⟨w, hw, htest⟩ := Run.exists_of_succeeds _ _ hloop
  simp only [Bool.and_eq_true, decide_eq_true_eq] at htest
  obtain ⟨⟨htable, hstrings⟩, hdirectory⟩ := htest
  have hunique : ∀ w', s.instruments.foldlM (Writer.step s) {} = .ok w' → w' = w :=
    fun w' hw' => Except.ok.inj (hw'.symm.trans hw)
  refine ⟨fun id hid => of_decide_eq_true (hblobs id hid), fun w' hw' => ?_, fun w' hw' => ?_, fun w' hw' => ?_⟩
  · rw [hunique w' hw']
    exact htable
  · rw [hunique w' hw']
    exact hstrings
  · rw [hunique w' hw']
    exact hdirectory

/-- Whether what was loaded fits. -/
def loadedCheck (loaded : InstrumentRegistry × GfdlDay) : Bool :=
  match loaded.2.session with
  | none => false
  | some s => fitsCheck s.session && (timelineOf s.session).length < 2 ^ 32

/-- An archive whose members hold no row. -/
def emptyZip : Archive where
  path := text "GFDLNFO_TICK_26012026.zip"
  input := .zip [(text "NIFTY27JAN2627250CE.csv", some (text "Ticker,Date,Time,LTP\n"))]
  fileSize := .ok 512

set_option maxRecDepth 20000 in
/-- An archive that holds a day, and one that holds none. -/
theorem conversion_is_complete_two :
    let s := convert {} (fun _ file => file) [dayZip "22", emptyZip] []
    s.converted + s.skipped + s.failed = 2 ∧ exitCode s = some 1 ∧ Has s.outdir "2026-01-22.vfday" := by
  have hday : ∃ loaded, loadDay {} (dayZip "22") = .ok loaded ∧
      (loadedCheck loaded && loaded.2.rowsRead ≠ 0 && outName loaded.2.date = "2026-01-22.vfday") = true :=
    Run.exists_of_succeeds (fun loaded => loadedCheck loaded && loaded.2.rowsRead ≠ 0 &&
      outName loaded.2.date = "2026-01-22.vfday") (loadDay {} (dayZip "22")) (by decide +kernel)
  have hempty : ∃ loaded, loadDay {} emptyZip = .ok loaded ∧ loaded.2.session.isNone = true :=
    Run.exists_of_succeeds (fun loaded => loaded.2.session.isNone) (loadDay {} emptyZip) (by decide +kernel)
  obtain ⟨⟨r, day⟩, hload, hcheck⟩ := hday
  obtain ⟨⟨r', day'⟩, hload', hnone⟩ := hempty
  rw [Bool.and_eq_true, Bool.and_eq_true, decide_eq_true_eq, decide_eq_true_eq] at hcheck
  obtain ⟨⟨hfit, hrows⟩, hname⟩ := hcheck
  have hsized : ∀ a ∈ [dayZip "22", emptyZip], a.Sized := by
    rintro a ha
    rcases List.mem_cons.mp ha with rfl | ha
    · exact ⟨2048, rfl⟩
    · rw [List.mem_singleton.mp ha]
      exact ⟨512, rfl⟩
  have hnotloaded : ∀ r day session, ¬ Loads {} emptyZip r day session := by
    intro r'' day'' session h
    rw [h.load] at hload'
    cases hload'
    rw [h.session] at hnone
    cases hnone
  have hfits : ∀ a ∈ [dayZip "22", emptyZip], Fits {} a := by
    rintro a ha
    rcases List.mem_cons.mp ha with rfl | ha
    · refine ⟨by decide +kernel, fun r'' day'' session h => ?_⟩
      rw [h.load] at hload
      cases hload
      unfold loadedCheck at hfit
      dsimp only at hfit
      rw [h.session, Bool.and_eq_true] at hfit
      exact ⟨fitsFormat_of_check hfit.1, of_decide_eq_true hfit.2⟩
    · rw [List.mem_singleton.mp ha]
      exact ⟨by decide +kernel, fun r'' day'' session h => absurd h (hnotloaded r'' day'' session)⟩
  obtain ⟨hcount, hreturns, hzero, hthere⟩ := conversion_is_complete (o := {}) (fun _ _ => rfl) hsized hfits []
  refine ⟨hcount, hreturns.resolve_left (fun hexit => ?_), ?_⟩
  · obtain ⟨r'', day'', session, h⟩ := hzero.mp hexit emptyZip (List.mem_cons_of_mem _ (List.mem_singleton.mpr rfl))
    exact hnotloaded r'' day'' session h
  · obtain ⟨session, hsession⟩ : ∃ session, day.session = some session := by
      cases hsession : day.session with
      | some session => exact ⟨session, rfl⟩
      | none =>
          unfold loadedCheck at hfit
          dsimp only at hfit
          rw [hsession] at hfit
          cases hfit
    exact hname ▸ hthere (dayZip "22") (List.mem_cons_self ..) r day session ⟨hload, hsession, hrows⟩

end Volforge.Convert
