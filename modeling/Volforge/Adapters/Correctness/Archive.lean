import Volforge.Adapters.Correctness.Day
import Volforge.Core.Correctness.Universe

/-!
# `Adapters.Correctness.Archive` — a day from a directory and from an archive

The two loaders go through the same files with the same row parser. What they count and list apart from the rows is
written twice: a file named `.csv` has no extension and is no file of the directory, and the directory lists the expiry
of every file it reads, the archive those of the contracts that have an observation.

## Contents
- **Members.** The files of a directory, and the members of an archive, in name order.
- **Loops.** One member read by either loader.
- **Expiries.** What each loader lists.
- **Main result.** `archive_agrees_iff`, and a contract without a row of the day.
-/

namespace Volforge.Gfdl

open IdTable

/-! ## Members -/

/-- The members of a flat archive of CSV files. -/
structure Members (members : List (Bytes × Bytes)) : Prop where
  distinct : (members.map Prod.fst).Nodup
  csv : ∀ m ∈ members, text ".csv" <:+ m.1
  flat : ∀ m ∈ members, chr '/' ∉ m.1 ∧ chr '\\' ∉ m.1
  contents : ∀ m ∈ members, m.2 ≠ []

/-- A member of an archive that inflates to the contents of a file. -/
def packed (m : Bytes × Bytes) : Bytes × Option Bytes := (m.1, some m.2)

theorem sortByName_pairwise {α : Type} (files : List (Bytes × α)) :
    (sortByName files).Pairwise (fun a b => a.1 ≤ b.1) := by
  have htotal : Std.Total (fun a b : Bytes × α => a.1 ≤ b.1) := ⟨fun a b => List.le_total a.1 b.1⟩
  have htrans : IsTrans (Bytes × α) (fun a b => a.1 ≤ b.1) := ⟨fun _ _ _ h h' => List.le_trans h h'⟩
  exact List.pairwise_insertionSort _ files

theorem sortByName_perm {α : Type} (files : List (Bytes × α)) : (sortByName files).Perm files :=
  List.perm_insertionSort _ files

/-- Files of distinct names in name order are what sorting any order of them gives. -/
theorem sortByName_eq {α : Type} {files sorted : List (Bytes × α)} (hnodup : (files.map Prod.fst).Nodup)
    (hsorted : sorted.Pairwise (fun a b => a.1 ≤ b.1)) (hperm : files.Perm sorted) : sortByName files = sorted := by
  refine Sorted.eq_of_perm_of_key Prod.fst ?_ (sortByName_pairwise files) hsorted
    ((sortByName_perm files).trans hperm)
  exact (((sortByName_perm files).map Prod.fst).nodup_iff).mpr hnodup

theorem leafOf_flat {name : Bytes} (hslash : chr '/' ∉ name) (hback : chr '\\' ∉ name) : leafOf name = name := by
  have hall : name.reverse.takeWhile (fun c => c ≠ chr '/' && c ≠ chr '\\') = name.reverse := by
    rw [List.takeWhile_eq_self_iff]
    intro c hc
    rw [List.mem_reverse] at hc
    have hne : c ≠ chr '/' := fun heq => hslash (heq ▸ hc)
    have hne' : c ≠ chr '\\' := fun heq => hback (heq ▸ hc)
    simp [hne, hne']
  unfold leafOf
  rw [hall, List.reverse_reverse]

/-- Of the names that end in `.csv` only the bare one has no extension. -/
theorem isCsv_iff {name : Bytes} (h : text ".csv" <:+ name) : isCsv name = true ↔ name ≠ text ".csv" := by
  obtain ⟨front, rfl⟩ := h
  have htail : (((front ++ text ".csv").reverse.takeWhile (fun c => c ≠ chr '.')).reverse) = text "csv" := by
    rw [List.reverse_append]
    rfl
  unfold isCsv extensionOf
  rw [htail]
  cases front with
  | nil => decide
  | cons c front =>
      have hlong : ¬ (c :: front ++ text ".csv").length ≤ (text "csv").length + 1 := by
        rw [List.length_append, List.length_cons, show (text ".csv").length = 4 from rfl,
          show (text "csv").length = 3 from rfl]
        omega
      rw [if_neg hlong]
      refine ⟨fun _ heq => ?_, fun _ => by decide⟩
      have hlength := congrArg List.length heq
      rw [List.length_append, List.length_cons] at hlength
      omega

/-- The bare name is no symbol. -/
theorem parse_bare : parseGfdlSymbol (text ".csv") = none := by decide

/-! ## Loops -/

/-- The loop over an archive stands where the one over a directory does, but for `bare` members that are no file. -/
structure Level (bare : Nat) (s t : DayLoop) : Prop where
  registry : t.registry = s.registry
  sink : t.sink = s.sink
  underlying : t.out.underlying = s.out.underlying
  filesRead : t.out.filesRead = s.out.filesRead
  filesSkipped : t.out.filesSkipped = s.out.filesSkipped + bare

/-- Counting a file as skipped, with or without a warning. -/
theorem Level.skip {bare : Nat} {s t s' t' : DayLoop} (h : Level bare s t) (hs : s' = s.skip ∨ ∃ w, s' = s.skip.warn w)
    (ht : t' = t.skip ∨ ∃ w, t' = t.skip.warn w) : Level bare s' t' := by
  have hcount : t.out.filesSkipped + 1 = s.out.filesSkipped + 1 + bare := by
    rw [h.filesSkipped]
    omega
  rcases hs with rfl | ⟨w, rfl⟩
  · rcases ht with rfl | ⟨w', rfl⟩
    · exact ⟨h.registry, h.sink, h.underlying, h.filesRead, hcount⟩
    · exact ⟨h.registry, h.sink, h.underlying, h.filesRead, hcount⟩
  · rcases ht with rfl | ⟨w', rfl⟩
    · exact ⟨h.registry, h.sink, h.underlying, h.filesRead, hcount⟩
    · exact ⟨h.registry, h.sink, h.underlying, h.filesRead, hcount⟩

/-- The step lemma of the two loops: a file and the member that holds it. -/
theorem loadEntry_level (options : GfdlLoadOptions) {bare : Nat} {s t : DayLoop} {m : Bytes × Bytes}
    (hflat : leafOf m.1 = m.1) (hcontents : m.2 ≠ []) (h : Level bare s t) :
    Run.Alike (Level bare) (loadFile options s m) (loadEntry options t (packed m)) := by
  obtain ⟨name, data⟩ := m
  dsimp only at hflat hcontents
  have hempty : ¬ data.isEmpty = true := by simpa using hcontents
  unfold loadFile loadEntry packed
  dsimp only
  rw [hflat]
  cases parseGfdlSymbol name with
  | none =>
      -- no contract is named: both count the file, and the archive is silent about short names
      dsimp only
      refine .ok (h.skip (.inr ⟨_, rfl⟩) ?_)
      split_ifs
      · exact .inr ⟨_, rfl⟩
      · exact .inl rfl
  | some sym =>
      dsimp only
      by_cases hother : (!options.onlyUnderlying.isEmpty && decide (sym.underlying ≠ options.onlyUnderlying)) = true
      · rw [if_pos hother, if_pos hother]
        exact .ok (h.skip (.inl rfl) (.inl rfl))
      · -- the same contract is registered, and the same rows are parsed
        rw [if_neg hother, if_neg hother, if_neg hempty, h.registry]
        generalize s.registry.internUnderlying sym.underlying = interned
        obtain ⟨registry, underlying⟩ := interned
        dsimp only
        generalize registry.add (specOf sym options underlying) = added
        obtain ⟨registry, id⟩ := added
        dsimp only
        have hparse : parseCsvRows data id options registry (DayLoop.sink { t with
            registry := registry, out := { t.out with underlying := underlying } }) =
            parseCsvRows data id options registry s.sink := congrArg _ h.sink
        rw [hparse]
        show Run.Alike (Level bare) (parseCsvRows data id options registry s.sink >>= _) _
        cases parseCsvRows data id options registry s.sink with
        | error e => exact .error e
        | ok x =>
            obtain ⟨sink, rowDate⟩ := x
            refine .ok ?_
            obtain ⟨warnings, hfile⟩ := countFile_eq (DayLoop.drain { s with
              registry := registry
              out := { s.out with underlying := underlying }
              expiries := InstrumentRegistry.insertDate sym.expiry s.expiries } sink) name rowDate
            obtain ⟨warnings', hentry⟩ := countFile_eq (DayLoop.drain { t with
              registry := registry, out := { t.out with underlying := underlying } } sink) name rowDate
            rw [hfile, hentry]
            exact ⟨rfl, rfl, rfl, congrArg (· + 1) h.filesRead, h.filesSkipped⟩

/-- A member without a name is skipped. -/
theorem loadEntry_bare (options : GfdlLoadOptions) {bare : Nat} {s t : DayLoop} {m : Bytes × Bytes}
    (hname : m.1 = text ".csv") (h : Level bare s t) :
    ∃ t', loadEntry options t (packed m) = .ok t' ∧ Level (bare + 1) s t' := by
  have hleaf : leafOf m.1 = text ".csv" := by
    rw [hname]
    decide
  unfold loadEntry packed
  dsimp only
  rw [hleaf, parse_bare]
  refine ⟨_, rfl, h.registry, h.sink, h.underlying, h.filesRead, ?_⟩
  show t.out.filesSkipped + 1 = _
  rw [h.filesSkipped, Nat.add_assoc]

/-- **The two loops** keep level, and lose a file for each bare name. -/
theorem loops_level (options : GfdlLoadOptions) {members : List (Bytes × Bytes)} (hcsv : ∀ m ∈ members, text ".csv" <:+ m.1)
    (hflat : ∀ m ∈ members, leafOf m.1 = m.1) (hcontents : ∀ m ∈ members, m.2 ≠ []) {bare : Nat} {s t : DayLoop}
    (h : Level bare s t) :
    Run.Alike (Level (bare + (members.filter (fun m => m.1 = text ".csv")).length))
      ((members.filter (fun m => isCsv m.1)).foldlM (loadFile options) s)
      ((members.map packed).foldlM (loadEntry options) t) := by
  induction members generalizing bare s t with
  | nil => exact .ok h
  | cons m members ih =>
      obtain ⟨hm, hcsv⟩ := List.forall_mem_cons.mp hcsv
      obtain ⟨hleaf, hflat⟩ := List.forall_mem_cons.mp hflat
      obtain ⟨hdata, hcontents⟩ := List.forall_mem_cons.mp hcontents
      have ih := fun {bare s t} => @ih hcsv hflat hcontents bare s t
      rw [List.map_cons, List.foldlM_cons]
      by_cases hname : m.1 = text ".csv"
      · -- a bare name is no file of the directory: only the archive's loop takes a step
        have hno : ¬ isCsv m.1 = true := by
          rw [isCsv_iff hm]
          exact not_not.mpr hname
        obtain ⟨t', hstep, hlevel⟩ := loadEntry_bare options hname h
        have hfiles : (m :: members).filter (fun m => isCsv m.1) = members.filter (fun m => isCsv m.1) :=
          List.filter_cons_of_neg hno
        rw [hfiles, List.filter_cons_of_pos (by simpa using hname), hstep, List.length_cons, Nat.add_comm _ 1,
          ← Nat.add_assoc]
        exact ih hlevel
      · -- any other name is a file of both
        have hyes : isCsv m.1 = true := (isCsv_iff hm).mpr hname
        have hfiles : (m :: members).filter (fun m => isCsv m.1) = m :: members.filter (fun m => isCsv m.1) :=
          List.filter_cons_of_pos hyes
        rw [hfiles, List.filter_cons_of_neg (by simpa using hname), List.foldlM_cons]
        have hstep := loadEntry_level options hleaf hdata h
        generalize loadFile options s m = x at hstep ⊢
        generalize loadEntry options t (packed m) = y at hstep ⊢
        cases hstep with
        | error e => exact .error e
        | ok hlevel => exact ih hlevel

/-! ## Expiries -/

theorem digitOf_le {c : UInt8} (h : isDigit c = true) : digitOf c ≤ 9 := by
  obtain ⟨_, hhigh⟩ := Bool.and_eq_true_iff.mp h
  have hnine : c.toNat ≤ 57 := UInt8.le_iff_toNat_le.mp (of_decide_eq_true hhigh)
  show c.toNat - 48 ≤ 9
  omega

theorem monthFrom_bounds (s : Bytes) : 0 ≤ monthFrom s ∧ monthFrom s ≤ 12 := by
  unfold monthFrom
  cases hfind : kMonths.findIdx? (fun m => text m = s) with
  | none => exact ⟨by decide, by decide⟩
  | some i =>
      obtain ⟨hlt, _⟩ := List.findIdx?_eq_some_iff_getElem.mp hfind
      have hlt : i < 12 := hlt
      dsimp only
      omega

/-- A contract has a valid expiry. -/
theorem parseContract_valid {underlying rest : Bytes} {right : Right} {sym : ParsedSymbol}
    (h : parseContract underlying right rest = some sym) : sym.expiry.valid = true := by
  unfold parseContract at h
  split at h
  · rename_i d1 d2 m1 m2 m3 y1 y2 strikeText
    dsimp only at h
    have hmonth := monthFrom_bounds [m1, m2, m3]
    generalize monthFrom [m1, m2, m3] = month at h hmonth
    split_ifs at h with hdays hno hyears _ _ _ hday
    cases h
    simp only [Bool.or_eq_true, Bool.not_eq_true', not_or, Bool.not_eq_false, decide_eq_true_eq] at hyears hday
    have hy1 := digitOf_le hyears.1
    have hy2 := digitOf_le hyears.2
    generalize (digitOf d1 * 10 + digitOf d2 : Int) = day at hday
    show decide ((0 : Int32) < Int32.ofInt _) = true
    rw [decide_eq_true_eq, Int32.lt_iff_toInt_lt, Int32.toInt_ofInt_of_le (by omega) (by omega)]
    show (0 : Int) < _
    omega
  · cases h

theorem parse_valid {ticker : Bytes} {sym : ParsedSymbol} (h : parseGfdlSymbol ticker = some sym) :
    sym.expiry.valid = true := by
  unfold parseGfdlSymbol at h
  dsimp only at h
  cases hright : rightOf (ticker.takeWhile (fun c => c ≠ chr '.')) with
  | none =>
      rw [hright] at h
      split_ifs at h
  | some right =>
      rw [hright] at h
      dsimp only at h
      split_ifs at h
      exact parseContract_valid h

theorem readSymbol_valid {options : GfdlLoadOptions} {file : Bytes × Bytes} {f : ParsedSymbol × Bytes}
    (h : readSymbol options file = some f) : f.1.expiry.valid = true := by
  unfold readSymbol at h
  cases hsym : parseGfdlSymbol file.1 with
  | none =>
      rw [hsym] at h
      cases h
  | some sym =>
      rw [hsym] at h
      dsimp only at h
      split_ifs at h
      cases h
      exact parse_valid hsym

/-- A directory lists the expiry of each file it reads. -/
theorem loadFile_expiries {options : GfdlLoadOptions} {s s' : DayLoop} {file : Bytes × Bytes}
    (h : loadFile options s file = .ok s') : s'.expiries =
      match readSymbol options file with
      | some f => InstrumentRegistry.insertDate f.1.expiry s.expiries
      | none => s.expiries := by
  obtain ⟨name, data⟩ := file
  unfold loadFile at h
  unfold readSymbol
  dsimp only at h ⊢
  cases hsym : parseGfdlSymbol name with
  | none =>
      rw [hsym] at h
      cases h
      rfl
  | some sym =>
      rw [hsym] at h
      dsimp only at h ⊢
      split_ifs at h ⊢ with hother hempty
      · cases h
        rfl
      · cases h
        rfl
      · obtain ⟨x, _, h⟩ := Run.bind_eq_ok.mp h
        cases h
        obtain ⟨warnings, hfile⟩ := countFile_eq (DayLoop.drain { s with
          registry := ((s.registry.internUnderlying sym.underlying).1.add
            (specOf sym options (s.registry.internUnderlying sym.underlying).2)).1
          out := { s.out with underlying := (s.registry.internUnderlying sym.underlying).2 }
          expiries := InstrumentRegistry.insertDate sym.expiry s.expiries } x.1) name x.2
        exact congrArg DayLoop.expiries hfile

theorem loadFiles_expiries {options : GfdlLoadOptions} {files : List (Bytes × Bytes)} {s s' : DayLoop}
    (hs : s.expiries = []) (h : files.foldlM (loadFile options) s = .ok s') :
    s'.expiries.Pairwise (· < ·) ∧
      ∀ e, e ∈ s'.expiries ↔ ∃ f ∈ files.filterMap (readSymbol options), f.1.expiry = e := by
  have hloop := Run.foldlM_inv_rest (fun rest (s : DayLoop) => s.expiries.Pairwise (· < ·) ∧
      ∀ e, (e ∈ s.expiries ∨ ∃ f ∈ rest.filterMap (readSymbol options), f.1.expiry = e) ↔
        ∃ f ∈ files.filterMap (readSymbol options), f.1.expiry = e) ?_ ⟨by rw [hs]; exact .nil, by simp [hs]⟩ h
  · obtain ⟨hasc, hmem⟩ := hloop
    refine ⟨hasc, fun e => ?_⟩
    rw [← hmem e]
    simp
  · rintro s file rest s' ⟨hasc, hmem⟩ hstep
    rw [loadFile_expiries hstep]
    cases hread : readSymbol options file with
    | none =>
        rw [List.filterMap_cons_none hread] at hmem
        exact ⟨hasc, hmem⟩
    | some f =>
        rw [List.filterMap_cons_some hread] at hmem
        refine ⟨InstrumentRegistry.insertDate_ascending hasc, fun e => ?_⟩
        rw [← hmem e, InstrumentRegistry.mem_insertDate]
        simp only [List.mem_cons, exists_eq_or_imp]
        rw [or_assoc, or_left_comm, @eq_comm _ e]

/-- The loop over the instruments, all of which have valid expiries. -/
theorem listExpiries_spec {registry : InstrumentRegistry} {instruments : List InstrumentId} {expiry : InstrumentId → Date}
    (hspec : ∀ id ∈ instruments, ∃ spec, registry.spec id = .ok spec ∧ spec.expiry = expiry id)
    (hvalid : ∀ id ∈ instruments, (expiry id).valid = true) {out : List Date} (hout : out.Pairwise (· < ·)) :
    ∃ es, instruments.foldlM (fun out id => do
        let spec ← registry.spec id
        return if spec.expiry.valid then InstrumentRegistry.insertDate spec.expiry out else out) out =
          (.ok es : Except Error _) ∧
      es.Pairwise (· < ·) ∧ ∀ e, e ∈ es ↔ e ∈ out ∨ ∃ id ∈ instruments, expiry id = e := by
  induction instruments generalizing out with
  | nil => exact ⟨out, rfl, hout, fun e => by simp⟩
  | cons id instruments ih =>
      obtain ⟨⟨spec, hid, hexpiry⟩, hspec⟩ := List.forall_mem_cons.mp hspec
      obtain ⟨hdate, hvalid⟩ := List.forall_mem_cons.mp hvalid
      have hnext := InstrumentRegistry.insertDate_ascending (d := expiry id) hout
      obtain ⟨es, hrun, hasc, hmem⟩ := ih hspec hvalid hnext
      refine ⟨es, ?_, hasc, fun e => ?_⟩
      · rw [List.foldlM_cons, hid]
        show List.foldlM _ (if spec.expiry.valid then InstrumentRegistry.insertDate spec.expiry out else out) _ = _
        rw [hexpiry, if_pos hdate]
        exact hrun
      · rw [hmem, InstrumentRegistry.mem_insertDate]
        simp only [List.mem_cons, exists_eq_or_imp]
        rw [or_assoc, or_left_comm, @eq_comm _ e]

/-- An archive lists the expiries of the contracts that have an observation. -/
theorem sessionExpiries_spec {registry : InstrumentRegistry} {session : MemorySessionData}
    {hist : List (ParsedSymbol × Quote)} {ids : List (InstrumentId × Quote)} (hholds : session.Holds ids)
    (hnames : List.Forall₂ (Names registry) hist ids) (hvalid : ∀ x ∈ hist, x.1.expiry.valid = true) :
    ∃ es, sessionExpiries registry session = .ok es ∧ es.Pairwise (· < ·) ∧
      ∀ e, e ∈ es ↔ ∃ x ∈ hist, x.1.expiry = e := by
  -- the contract of an observation, and what the registry has under its id
  have hlisted : ∀ {x y}, Names registry x y → ∃ spec, registry.spec y.1 = .ok spec ∧ spec.expiry = x.1.expiry := by
    rintro x y ⟨⟨u, spec, _, hspec, hkey⟩, _⟩
    exact ⟨spec, InstrumentRegistry.spec_eq_ok.mpr hspec, congrArg Key.expiry hkey⟩
  have hcontract : ∀ id ∈ session.instruments, ∃ x ∈ hist, ∃ spec, registry.spec id = .ok spec ∧
      spec.expiry = x.1.expiry := by
    intro id hid
    obtain ⟨y, hy, rfl⟩ := (hholds.instruments id).mp hid
    obtain ⟨x, hx, hxy⟩ := exists_of_mem_right hnames hy
    exact ⟨x, hx, hlisted hxy⟩
  have hspec : ∀ id ∈ session.instruments, ∃ spec, registry.spec id = .ok spec ∧
      spec.expiry = ((registry.spec id).toOption.map InstrumentSpec.expiry).getD ⟨0⟩ := by
    intro id hid
    obtain ⟨_, _, spec, hspec, _⟩ := hcontract id hid
    exact ⟨spec, hspec, by rw [hspec]; rfl⟩
  have hdates : ∀ id ∈ session.instruments,
      (((registry.spec id).toOption.map InstrumentSpec.expiry).getD ⟨0⟩).valid = true := by
    intro id hid
    obtain ⟨x, hx, spec, hspec, hexpiry⟩ := hcontract id hid
    rw [hspec, show (Except.ok spec : Except Error _).toOption = some spec from rfl, Option.map_some, Option.getD_some,
      hexpiry]
    exact hvalid x hx
  obtain ⟨es, hrun, hasc, hmem⟩ := listExpiries_spec hspec hdates .nil
  refine ⟨es, hrun, hasc, fun e => ?_⟩
  rw [hmem]
  constructor
  · rintro (hnil | ⟨id, hid, rfl⟩)
    · cases hnil
    · obtain ⟨x, hx, spec, hspec, hexpiry⟩ := hcontract id hid
      refine ⟨x, hx, ?_⟩
      rw [hspec, ← hexpiry]
      rfl
  · rintro ⟨x, hx, rfl⟩
    obtain ⟨y, hy, hxy⟩ := exists_of_mem_left hnames hx
    obtain ⟨spec, hspec, hexpiry⟩ := hlisted hxy
    refine .inr ⟨y.1, (hholds.instruments y.1).mpr ⟨y, hy, rfl⟩, ?_⟩
    rw [hspec, ← hexpiry]
    rfl

/-! ## Main result -/

/-- Two days that were loaded agree, apart from their warnings. -/
structure SameDay (x y : InstrumentRegistry × GfdlDay) : Prop where
  registry : x.1 = y.1
  session : x.2.session = y.2.session
  underlying : x.2.underlying = y.2.underlying
  date : x.2.date = y.2.date
  filesRead : x.2.filesRead = y.2.filesRead
  filesSkipped : x.2.filesSkipped = y.2.filesSkipped
  rowsRead : x.2.rowsRead = y.2.rowsRead
  rowsSkipped : x.2.rowsSkipped = y.2.rowsSkipped
  expiries : x.2.expiries = y.2.expiries

/-- The expiry of each file is that of a file with a row of the day. -/
def ExpiriesObserved (d : Date) (files : List (ParsedSymbol × Bytes)) : Prop :=
  ∀ f ∈ files, ∃ g ∈ files, dayRows d g.2 ≠ [] ∧ g.1.expiry = f.1.expiry

instance (d : Date) (files : List (ParsedSymbol × Bytes)) : Decidable (ExpiriesObserved d files) := by
  unfold ExpiriesObserved
  infer_instance

theorem exists_dayPrints_iff {d : Date} (options : GfdlLoadOptions) {files : List (ParsedSymbol × Bytes)} {e : Date} :
    (∃ x ∈ dayPrints d options files, x.1.expiry = e) ↔ ∃ g ∈ files, dayRows d g.2 ≠ [] ∧ g.1.expiry = e := by
  have hrows : ∀ data, fileRows d options data ≠ [] ↔ dayRows d data ≠ [] := by
    intro data
    have hhead : (fileRows d options data).head? = (dayRows d data).head? := rowsFrom_head d options _
    rw [not_iff_not, ← List.head?_eq_none_iff, hhead, List.head?_eq_none_iff]
  unfold dayPrints printsOf
  simp only [List.mem_flatMap, List.mem_map]
  constructor
  · rintro ⟨_, ⟨g, hg, r, hr, rfl⟩, hexpiry⟩
    exact ⟨g, hg, (hrows g.2).mp (List.ne_nil_of_mem hr), hexpiry⟩
  · rintro ⟨g, hg, hday, hexpiry⟩
    obtain ⟨r, hr⟩ := List.exists_mem_of_ne_nil _ ((hrows g.2).mpr hday)
    exact ⟨_, ⟨g, hg, r, hr, rfl⟩, hexpiry⟩

/-- What the archive lists where the two loops are level. -/
theorem archiveExpiries {d : Date} {options : GfdlLoadOptions} {files : List (ParsedSymbol × Bytes)} {bare : Nat}
    {s t : DayLoop} {ids : List (InstrumentId × Quote)} (h : Loading d options s (dayPrints d options files) ids)
    (hvalid : ∀ f ∈ files, f.1.expiry.valid = true) (hlevel : Level bare s t) :
    ∃ es, (match t.out.session with
        | none => (.ok [] : Except Error (List Date))
        | some session => sessionExpiries t.registry session) = .ok es ∧
      es.Pairwise (· < ·) ∧ ∀ e, e ∈ es ↔ ∃ g ∈ files, dayRows d g.2 ≠ [] ∧ g.1.expiry = e := by
  have hsession : t.out.session = s.out.session := congrArg RowSink.session hlevel.sink
  rw [hsession, hlevel.registry]
  have hvalid : ∀ x ∈ dayPrints d options files, x.1.expiry.valid = true := by
    intro x hx
    obtain ⟨g, hg, _, hexpiry⟩ := (exists_dayPrints_iff options).mp ⟨x, hx, rfl⟩
    exact hexpiry ▸ hvalid g hg
  cases hs : s.out.session with
  | none =>
      have hnil : ids = [] := h.stored.fresh hs
      have hnames := h.names
      rw [hnil, List.forall₂_nil_right_iff] at hnames
      refine ⟨[], rfl, .nil, fun e => ?_⟩
      rw [← exists_dayPrints_iff options, hnames]
      simp
  | some session =>
      obtain ⟨es, hrun, hasc, hmem⟩ := sessionExpiries_spec (h.stored.holds session hs).1 h.names hvalid
      refine ⟨es, hrun, hasc, fun e => ?_⟩
      rw [hmem, exists_dayPrints_iff options]

/-- The files of a directory and the members of an archive, both in name order. -/
theorem Members.sorted {members : List (Bytes × Bytes)} (h : Members members) :
    (∀ directory : List (Bytes × Bytes), directory.Perm members → sortByName (directory.filter (fun file => isCsv file.1)) =
        (sortByName members).filter (fun m => isCsv m.1)) ∧
      ∀ archive : List (Bytes × Option Bytes), archive.Perm (members.map packed) → sortByName archive = (sortByName members).map packed := by
  have hpairs := sortByName_pairwise members
  have hperm := sortByName_perm members
  constructor
  · intro directory hdir
    refine sortByName_eq ?_ (hpairs.filter _) ((hdir.trans hperm.symm).filter _)
    have hnodup : (directory.map Prod.fst).Nodup := ((hdir.map Prod.fst).nodup_iff).mpr h.distinct
    exact hnodup.sublist (List.filter_sublist.map Prod.fst)
  · intro archive harch
    refine sortByName_eq ?_ (List.pairwise_map.mpr hpairs) (harch.trans (hperm.symm.map packed))
    have hnames : (members.map packed).map Prod.fst = members.map Prod.fst := by
      rw [List.map_map]
      rfl
    rw [((harch.map Prod.fst).nodup_iff), hnames]
    exact h.distinct

/-- Level loops end in the same day when no member was lost and the lists of expiries are the same. -/
theorem Level.sameDay_iff {bare : Nat} {s t : DayLoop} (h : Level bare s t) (expiries : List Date) :
    SameDay
        (s.registry, { s.out with expiries := s.expiries, session := closeSession s.registry s.out.session })
        (t.registry, { t.out with expiries := expiries, session := closeSession t.registry t.out.session }) ↔
      bare = 0 ∧ s.expiries = expiries := by
  constructor
  · intro hsame
    have hskipped : s.out.filesSkipped = t.out.filesSkipped := hsame.filesSkipped
    rw [h.filesSkipped] at hskipped
    exact ⟨by omega, hsame.expiries⟩
  · rintro ⟨rfl, hexpiries⟩
    have hsession : t.out.session = s.out.session := congrArg RowSink.session h.sink
    have hclose : closeSession s.registry s.out.session = closeSession t.registry t.out.session := by
      rw [hsession, h.registry]
    exact ⟨h.registry.symm, hclose, h.underlying.symm, congrArg RowSink.date h.sink.symm, h.filesRead.symm,
      h.filesSkipped.symm, congrArg RowSink.rowsRead h.sink.symm, congrArg RowSink.rowsSkipped h.sink.symm, hexpiries⟩

/-- The lists of all expiries and of those with a row of the day are the same when each is that of a row. -/
theorem expiries_eq_iff {d : Date} {files : List (ParsedSymbol × Bytes)} {all seen : List Date}
    (hall : all.Pairwise (· < ·)) (hseen : seen.Pairwise (· < ·))
    (hmem : ∀ e, e ∈ all ↔ ∃ f ∈ files, f.1.expiry = e)
    (hmem' : ∀ e, e ∈ seen ↔ ∃ g ∈ files, dayRows d g.2 ≠ [] ∧ g.1.expiry = e) :
    all = seen ↔ ExpiriesObserved d files := by
  constructor
  · rintro rfl f hf
    exact (hmem' f.1.expiry).mp ((hmem f.1.expiry).mpr ⟨f, hf, rfl⟩)
  · intro hobserved
    refine Sorted.eq_of_mem_iff hall hseen (fun e => ?_)
    rw [hmem, hmem']
    constructor
    · rintro ⟨f, hf, rfl⟩
      exact hobserved f hf
    · rintro ⟨g, hg, _, rfl⟩
      exact ⟨g, hg, rfl⟩

/-- The last step of the archive's loader, with the expiries it lists. -/
theorem return_of_expiries {t : DayLoop} {es : List Date} (h : (match t.out.session with
        | none => (.ok [] : Except Error (List Date))
        | some session => sessionExpiries t.registry session) = .ok es)
    (f : List Date → InstrumentRegistry × GfdlDay) : (do
      let expiries ← match t.out.session with
        | none => pure []
        | some session => sessionExpiries t.registry session
      return f expiries) = (.ok (f es) : Except Error (InstrumentRegistry × GfdlDay)) := by
  cases hsession : t.out.session with
  | none =>
      rw [hsession] at h
      cases h
      rfl
  | some session =>
      rw [hsession] at h
      dsimp only at h ⊢
      rw [h]
      rfl

theorem no_bare_iff (members : List (Bytes × Bytes)) :
    ((sortByName members).filter (fun m => m.1 = text ".csv")).length = 0 ↔ ∀ m ∈ members, m.1 ≠ text ".csv" := by
  rw [List.length_eq_zero_iff, List.filter_eq_nil_iff]
  simp [sortByName]

/-- **A directory and an archive of the same files agree exactly when** each has a name before its extension and each
    expiry is that of a file with a row of the day, unless the files of a contract overlap and both loads are given up. -/
theorem archive_agrees_iff {members : List (Bytes × Bytes)} (h : Members members) {directory : List (Bytes × Bytes)}
    (hdir : directory.Perm members) {archive : List (Bytes × Option Bytes)} (harch : archive.Perm (members.map packed))
    {options : GfdlLoadOptions} (hdate : options.expectedDate.valid = true) (zipPath : Bytes) :
    Run.Alike SameDay (loadGfdlDay {} directory options) (loadGfdlZip {} zipPath archive options) ↔
      (InTimeOrder options.expectedDate options (filesRead options members) →
        (∀ m ∈ members, m.1 ≠ text ".csv") ∧
          ExpiriesObserved options.expectedDate (filesRead options members)) := by
  -- both loops go through the members in name order
  obtain ⟨hfiles, hentries⟩ := h.sorted
  have hmem : ∀ m ∈ sortByName members, m ∈ members := fun m hm => (sortByName_perm members).mem_iff.mp hm
  set read := filesRead options members with hread
  have hread : ((sortByName members).filter (fun m => isCsv m.1)).filterMap (readSymbol options) = read := by
    rw [hread, filesRead, hfiles members (List.Perm.refl _)]
  have hday : options.expectedDate = dayDate options.expectedDate (linesLeft read) := by
    rw [dayDate, if_pos hdate]
  -- how the loop over the directory ends, and that the loop over the archive stands level with it
  have hends := loadFiles_ends InstrumentRegistry.sound_empty hread hday
  rw [ordered_dayPrints_iff] at hends
  have hlevel := loops_level options (fun m hm => h.csv m (hmem m hm))
    (fun m hm => leafOf_flat (h.flat m (hmem m hm)).1 (h.flat m (hmem m hm)).2) (fun m hm => h.contents m (hmem m hm))
    (⟨rfl, rfl, rfl, rfl, rfl⟩ : Level 0 { registry := {}, expected := options.expectedDate }
      { registry := {}, expected := options.expectedDate })
  unfold loadGfdlDay loadGfdlZip
  rw [if_pos hdate, hfiles directory hdir, hentries archive harch]
  dsimp only
  generalize hx : ((sortByName members).filter (fun m => isCsv m.1)).foldlM (loadFile options)
    { registry := {}, expected := options.expectedDate } = x at hends hlevel ⊢
  generalize ((sortByName members).map packed).foldlM (loadEntry options)
    { registry := {}, expected := options.expectedDate } = y at hlevel ⊢
  cases hlevel with
  | error e =>
      -- both loads are given up: two rows of a contract are out of time order
      exact iff_of_true (.error e) (fun horder => absurd horder hends)
  | @ok s t hlevel =>
      obtain ⟨ids, hloading, _, _⟩ := hends
      have horder : InTimeOrder options.expectedDate options read := by
        rw [← ordered_dayPrints_iff, ordered_iff hloading.sound hloading.names]
        exact hloading.ordered
      have hvalid : ∀ f ∈ read, f.1.expiry.valid = true := by
        intro f hf
        rw [← hread] at hf
        obtain ⟨m, _, hm⟩ := List.mem_filterMap.mp hf
        exact readSymbol_valid hm
      obtain ⟨hasc, hlisted⟩ := loadFiles_expiries rfl hx
      obtain ⟨es, hes, hasc', hlisted'⟩ := archiveExpiries hloading hvalid hlevel
      rw [hread] at hlisted
      rw [forall_prop_of_true horder, ← no_bare_iff, ← expiries_eq_iff hasc hasc' hlisted hlisted',
        ← Nat.zero_add (List.length _), ← hlevel.sameDay_iff]
      have hzip := return_of_expiries hes (fun expiries => (t.registry, { t.out with
        expiries := expiries, session := closeSession t.registry t.out.session }))
      constructor
      · intro halike
        obtain ⟨b, hb, hsame⟩ := halike.ok_of_ok
        rwa [← Except.ok.inj (hzip.symm.trans hb)] at hsame
      · intro hsame
        exact Eq.subst (motive := fun z => Run.Alike SameDay _ z) hzip.symm (.ok hsame)

/-- Options for the session of a date. -/
def sessionOf (date : Int32) : GfdlLoadOptions := { expectedDate := ⟨date⟩ }

theorem twoFiles_members : Members (twoFiles "09:15:00" "09:16:00") where
  distinct := by decide
  csv := by decide
  flat := by decide
  contents := by decide +kernel

theorem archive_agrees_iff_two : Run.Alike SameDay (loadGfdlDay {} (twoFiles "09:15:00" "09:16:00") (sessionOf 20260122))
    (loadGfdlZip {} (text "GFDLNFO_TICK_22012026.zip") ((twoFiles "09:15:00" "09:16:00").map packed)
      (sessionOf 20260122)) :=
  (archive_agrees_iff twoFiles_members (.refl _) (.refl _) (by decide) _).mpr
    (fun _ => ⟨by decide, by decide +kernel⟩)

/-- Every row is of another day: the directory lists the expiry, the archive does not. -/
theorem rowless_contract_is_listed_by_directory : ¬ Run.Alike SameDay
    (loadGfdlDay {} (twoFiles "09:15:00" "09:16:00") (sessionOf 20260123))
    (loadGfdlZip {} (text "GFDLNFO_TICK_23012026.zip") ((twoFiles "09:15:00" "09:16:00").map packed)
      (sessionOf 20260123)) := by
  intro halike
  have hday := Run.exists_of_succeeds (fun x => x.2.expiries = [⟨20260127⟩])
    (loadGfdlDay {} (twoFiles "09:15:00" "09:16:00") (sessionOf 20260123)) (by decide +kernel)
  have hzip := Run.exists_of_succeeds (fun x => x.2.expiries = [])
    (loadGfdlZip {} (text "GFDLNFO_TICK_23012026.zip") ((twoFiles "09:15:00" "09:16:00").map packed)
      (sessionOf 20260123)) (by decide +kernel)
  obtain ⟨x, hx, hlisted⟩ := hday
  obtain ⟨y, hy, hlisted'⟩ := hzip
  rw [hx, hy] at halike
  cases halike with
  | ok hsame =>
      have heq := hsame.expiries
      rw [of_decide_eq_true hlisted, of_decide_eq_true hlisted'] at heq
      cases heq

end Volforge.Gfdl
