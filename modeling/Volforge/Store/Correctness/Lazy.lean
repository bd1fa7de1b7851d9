import Volforge.Lib.Memo
import Volforge.Store.Correctness.Trust

/-!
# `Store.Correctness.Lazy` — what decoding on demand shows

A session decodes an instrument when it is first asked for it and keeps the columns. `LazySession` is that
session with its cache and its one stream. While every read finds what it asks for, the cache is a memo table of
the session that decodes anew each time, and shows nothing. The first read that falls short fails the stream for good.

## Contents
- **Rows.** The row counts of an accepted directory add up to the total, as numbers; which blobs read short.
- **Cache.** One request before the stream fails (`materialise_eq_ask`), the one that fails it, and one after it.
- **Requests.** A sequence of them, before and after.
- **Memory.** What has been decoded, and how much of it there is (`decoded_on_demand`).
- **A blob past the end of the file.** A healthy contract that cannot be read any more.
-/

namespace Volforge

namespace VfdaySession

/-! ## Rows -/

theorem rowsOf_toNat (es : List DirEntry) (rows : UInt64)
    (hsmall : rows.toNat + (es.map (fun e => e.rowCount.toNat)).sum < 2 ^ 64) :
    (rowsOf es rows).toNat = rows.toNat + (es.map (fun e => e.rowCount.toNat)).sum := by
  induction es generalizing rows with
  | nil => simp [rowsOf]
  | cons e es ih =>
      rw [List.map_cons, List.sum_cons] at hsmall ⊢
      have hadd : (rows + e.rowCount.toUInt64).toNat = rows.toNat + e.rowCount.toNat := by
        rw [UInt64.toNat_add, UInt32.toNat_toUInt64]
        exact Nat.mod_eq_of_lt (by omega)
      have hrest := ih (rows + e.rowCount.toUInt64) (by rw [hadd]; omega)
      rw [show rowsOf (e :: es) rows = rowsOf es (rows + e.rowCount.toUInt64) from rfl, hrest, hadd]
      omega

/-- What the directory of an accepted file lists: every contract once, and as many rows as the header says. -/
structure Listed (s : VfdaySession) : Prop where
  keys : s.entries.map (·.1) = s.instruments
  nodup : s.instruments.Nodup
  rows : (s.entries.map (fun x => x.2.rowCount.toNat)).sum = s.totalRows.toNat

theorem listed_of_openFile {path : String} {file : Bytes} {r r' : InstrumentRegistry} {s : VfdaySession}
    (h : openFile path file r = (.ok s, r')) : s.Listed := by
  obtain ⟨m, ts, hm, hts, hnodup, rfl, hrows, _⟩ := openFile_eq_ok.mp h
  have hlen : (registerMany m ts r).1.length = m.directory.length := by
    rw [length_registerMany, hts.length_eq]
  refine ⟨keys_extend hlen, hnodup, ?_⟩
  have hcounts : ((startSession path file m).extend (registerMany m ts r).1 m.directory).entries.map
      (fun x => x.2.rowCount.toNat) = m.directory.map (fun e => e.rowCount.toNat) := by
    have hentries := congrArg (List.map (fun e : Entry => e.rowCount.toNat)) (entries_extend (s := startSession path file m) hlen)
    rw [List.map_map] at hentries
    exact hentries.trans (by simp [startSession, entryOf])
  -- fewer than 2 ^ 31 entries of fewer than 2 ^ 32 rows each
  have hfew : m.directory.length < 2 ^ 31 := by
    obtain ⟨raw, _, hdirectory, hcount⟩ := hm.directory
    rw [hdirectory, length_readMany, hcount]
    have := Int32.toInt_lt m.header.instrumentCount
    omega
  have hsum := List.sum_le_card_nsmul (m.directory.map (fun e => e.rowCount.toNat)) (2 ^ 32) (by
    intro n hn
    obtain ⟨e, _, rfl⟩ := List.mem_map.mp hn
    exact le_of_lt (UInt32.toNat_lt e.rowCount))
  rw [List.length_map, smul_eq_mul] at hsum
  have hsmall : (0 : UInt64).toNat + (m.directory.map (fun e => e.rowCount.toNat)).sum < 2 ^ 64 := by
    rw [UInt64.toNat_zero]
    omega
  rw [hcounts]
  have htotal := rowsOf_toNat m.directory 0 hsmall
  rw [hrows, UInt64.toNat_zero, Nat.zero_add] at htotal
  exact htotal.symm

/-- The blob of an instrument lies past the end of the file, so that reading it falls short. -/
def readsShort (s : VfdaySession) (id : InstrumentId) : Bool :=
  match s.entries.lookup id with
  | none => false
  | some e => (readAt s.file e.blobOffset e.blobBytes.toNat).isNone

/-- The error of a read that falls short. -/
def shortRead (s : VfdaySession) : Error := vfdayError s.path "short read on instrument data"

theorem readsShort_eq_some {s : VfdaySession} {id : InstrumentId} {e : Entry} (h : s.entries.lookup id = some e) :
    s.readsShort id = (readAt s.file e.blobOffset e.blobBytes.toNat).isNone := by
  unfold readsShort
  rw [h]

theorem materialise_of_short {s : VfdaySession} {id : InstrumentId} (h : s.readsShort id = true) :
    (∃ e, s.entries.lookup id = some e) ∧ s.materialise id = .error s.shortRead := by
  unfold readsShort at h
  unfold materialise
  cases hlookup : s.entries.lookup id with
  | none =>
      rw [hlookup] at h
      cases h
  | some e =>
      rw [hlookup] at h
      dsimp only at h ⊢
      rw [Option.isNone_iff_eq_none.mp h]
      exact ⟨⟨e, rfl⟩, rfl⟩

/-- In an accepted file only the blob of a region whose end is past the largest offset lies past the end of the file. -/
theorem wraps_of_readsShort {path : String} {file : Bytes} {r r' : InstrumentRegistry} {s : VfdaySession}
    (h : openFile path file r = (.ok s, r')) {id : InstrumentId} (hshort : s.readsShort id = true) :
    ∃ e, s.entries.lookup id = some e ∧ 2 ^ 63 ≤ e.blobOffset.toInt + e.blobBytes.toNat := by
  obtain ⟨m, ts, hm, hfile, _, _, hts, hentries⟩ := entries_of_openFile h
  obtain ⟨⟨e, he⟩, _⟩ := materialise_of_short hshort
  rw [readsShort_eq_some he, hfile, Option.isNone_iff_eq_none] at hshort
  have hkey : id ∈ s.instruments := by
    rw [← (listed_of_openFile h).keys, ← lookup_isSome_iff, he]
    rfl
  obtain ⟨d, hd, hd'⟩ := IdTable.exists_of_mem_left hentries hkey
  rw [he, Option.some.injEq] at hd'
  subst hd'
  obtain ⟨t, _, ht⟩ := IdTable.exists_of_mem_left hts hd
  have hblob := (checkEntry_eq_ok.mp ht).blob
  refine ⟨_, he, not_lt.mp (fun hwrap => ?_)⟩
  -- a blob that ends before the table lies in the file
  have hend := (blob_inside_iff (le_trans (by decide) hblob.1) hblob.2).mpr hwrap
  obtain ⟨table, htable, _⟩ := hm.table
  have hinside := (inside_of_readRegion htable).2
  have hstart : (0 : Int) ≤ d.blobOffset.toInt := le_trans (by decide) hblob.1
  unfold readAt at hshort
  dsimp only at hshort
  split_ifs at hshort with hlen
  rw [List.length_drop] at hlen
  have hoffset : (entryOf d).blobOffset = d.blobOffset := rfl
  have hbytes : (entryOf d).blobBytes = d.blobBytes := rfl
  rw [hoffset, hbytes] at hlen
  omega

/-- A listed instrument that is decoded has as many rows as the directory says. -/
theorem size_of_materialise {s : VfdaySession} {id : InstrumentId} {e : Entry} {c : QuoteColumns}
    (hlookup : s.entries.lookup id = some e) (h : s.materialise id = .ok c) : c.size = e.rowCount.toNat := by
  have hquotes : s.quotes id = .ok (if c.ts.isEmpty then {} else c) := by
    unfold quotes
    rw [h, Run.ok_bind]
    split_ifs <;> rfl
  have hchecked := (quotes_checked hlookup hquotes).rows
  split_ifs at hchecked with hempty
  · rw [← hchecked, QuoteColumns.size, List.isEmpty_iff.mp hempty]
    rfl
  · exact hchecked

end VfdaySession

/-! ## Cache -/

namespace LazySession

/-- What is kept: the columns of the listed instruments that decode. -/
def policy (s : VfdaySession) : Memo.Policy InstrumentId (Except Error QuoteColumns) QuoteColumns :=
  (Memo.Policy.results _ _ _).only (fun id => (s.entries.lookup id).isSome)

theorem policy_keep_eq_some {s : VfdaySession} {id : InstrumentId} {c : QuoteColumns} :
    (policy s).keep id (s.materialise id) = some c ↔
      (∃ e, s.entries.lookup id = some e) ∧ s.materialise id = .ok c := by
  unfold policy Memo.Policy.only Memo.Policy.results
  dsimp only
  rw [← Option.isSome_iff_exists]
  cases hmaterialise : s.materialise id with
  | error x => simp [Except.toOption]
  | ok c' => simp [Except.toOption]

/-- As long as the stream has not failed, the cache is a memo table of `materialise`. -/
theorem materialise_eq_ask {s : LazySession} (hgood : s.failed = false) {id : InstrumentId}
    (hwhole : s.session.readsShort id = false) :
    s.materialise id = ((Memo.ask (policy s.session) s.session.materialise s.decoded id).1,
      { s with decoded := (Memo.ask (policy s.session) s.session.materialise s.decoded id).2 }) := by
  unfold materialise Memo.ask
  cases hdecoded : s.decoded.lookup id with
  | some c => rfl
  | none =>
      dsimp only
      cases hentry : s.session.entries.lookup id with
      | none =>
          have hkeep : (policy s.session).keep id (s.session.materialise id) = none := by
            simp [policy, Memo.Policy.only, hentry]
          have hempty : s.session.materialise id = .ok {} := by
            unfold VfdaySession.materialise
            rw [hentry]
          rw [hkeep, hempty]
      | some e =>
          rw [VfdaySession.readsShort_eq_some hentry] at hwhole
          dsimp only
          rw [if_neg (by rw [hgood]; decide), hwhole]
          cases hmaterialise : s.session.materialise id with
          | error x =>
              have hkeep : (policy s.session).keep id (.error x) = none := by
                simp [policy, Memo.Policy.only, Memo.Policy.results, Except.toOption]
              rw [hkeep, ← hgood]
          | ok c =>
              have hkeep := policy_keep_eq_some.mpr ⟨⟨e, hentry⟩, hmaterialise⟩
              rw [hmaterialise] at hkeep
              rw [hkeep]

/-- A read that falls short fails the stream. -/
theorem materialise_of_short {s : LazySession} (hgood : s.failed = false)
    (hfaithful : Memo.Faithful (policy s.session) s.session.materialise s.decoded) {id : InstrumentId}
    (hshort : s.session.readsShort id = true) :
    s.materialise id = (.error s.session.shortRead, { s with failed := true }) := by
  obtain ⟨⟨e, he⟩, herror⟩ := VfdaySession.materialise_of_short hshort
  have hnew : s.decoded.lookup id = none := by
    cases hdecoded : s.decoded.lookup id with
    | none => rfl
    | some c =>
        obtain ⟨_, hok⟩ := policy_keep_eq_some.mp (hfaithful.kept id c (Memo.mem_of_lookup hdecoded))
        rw [herror] at hok
        cases hok
  rw [VfdaySession.readsShort_eq_some he] at hshort
  unfold materialise
  rw [hnew, he, herror]
  dsimp only
  rw [if_neg (by rw [hgood]; decide), hshort]

/-- On a stream that has failed, what has been decoded is answered and nothing more is read. -/
theorem materialise_of_failed {s : LazySession} (hbad : s.failed = true)
    (hfaithful : Memo.Faithful (policy s.session) s.session.materialise s.decoded) (id : InstrumentId) :
    s.materialise id =
      (if (s.session.entries.lookup id).isSome ∧ id ∉ s.decoded.map (·.1) then .error s.session.shortRead
       else s.session.materialise id, s) := by
  unfold materialise
  cases hdecoded : s.decoded.lookup id with
  | some c =>
      have hmem := Memo.mem_of_lookup hdecoded
      have hkey : id ∈ s.decoded.map (·.1) := List.mem_map_of_mem hmem
      rw [if_neg (fun h => h.2 hkey), (policy_keep_eq_some.mp (hfaithful.kept id c hmem)).2]
  | none =>
      have hkey := Memo.not_mem_keys_of_lookup hdecoded
      dsimp only
      cases hentry : s.session.entries.lookup id with
      | none =>
          have hempty : s.session.materialise id = .ok {} := by
            unfold VfdaySession.materialise
            rw [hentry]
          rw [if_neg (by simp), hempty]
      | some e =>
          dsimp only
          rw [if_pos hbad, if_pos ⟨rfl, hkey⟩]
          rfl

/-! ## Requests -/

/-- What `quotes` makes of the columns it gets. -/
def shown (answer : Except Error QuoteColumns) : Except Error QuoteColumns :=
  (fun c => if c.ts.isEmpty then {} else c) <$> answer

theorem quotes_eq (s : LazySession) (id : InstrumentId) :
    s.quotes id = (shown (s.materialise id).1, (s.materialise id).2) := by
  unfold quotes
  generalize s.materialise id = result
  obtain ⟨answer, s'⟩ := result
  cases answer <;> rfl

theorem session_quotes_eq (s : VfdaySession) (id : InstrumentId) : s.quotes id = shown (s.materialise id) := by
  unfold VfdaySession.quotes shown
  cases s.materialise id with
  | error x => rfl
  | ok c => exact (apply_ite Except.ok _ _ _).symm

/-- Requests one after the other: the answers, and the session at the end. -/
def quotesAll : LazySession → List InstrumentId → List (Except Error QuoteColumns) × LazySession
  | s, [] => ([], s)
  | s, id :: ids => ((s.quotes id).1 :: ((s.quotes id).2.quotesAll ids).1, ((s.quotes id).2.quotesAll ids).2)

theorem quotesAll_append (s : LazySession) (ids ids' : List InstrumentId) :
    s.quotesAll (ids ++ ids') =
      ((s.quotesAll ids).1 ++ ((s.quotesAll ids).2.quotesAll ids').1, ((s.quotesAll ids).2.quotesAll ids').2) := by
  induction ids generalizing s with
  | nil => rfl
  | cons id ids ih => simp only [List.cons_append, quotesAll, ih]

/-- As long as no read falls short, requests are questions to the memo table. -/
theorem quotesAll_eq {s : LazySession} (hgood : s.failed = false) {ids : List InstrumentId}
    (hwhole : ∀ id ∈ ids, s.session.readsShort id = false) :
    s.quotesAll ids =
      ((Memo.askAll (policy s.session) s.session.materialise s.decoded ids).1.map shown,
        { s with decoded := (Memo.askAll (policy s.session) s.session.materialise s.decoded ids).2 }) := by
  induction ids generalizing s with
  | nil => rfl
  | cons id ids ih =>
      have hstep := materialise_eq_ask hgood (hwhole id (List.mem_cons_self ..))
      have hrest := ih (s := { s with decoded := (Memo.ask (policy s.session) s.session.materialise s.decoded id).2 })
        hgood (fun id' hid' => hwhole id' (List.mem_cons_of_mem _ hid'))
      rw [quotesAll, quotes_eq, hstep]
      dsimp only
      rw [hrest]
      rfl

/-- On a stream that has failed, nothing changes any more. -/
theorem quotesAll_of_failed {s : LazySession} (hbad : s.failed = true)
    (hfaithful : Memo.Faithful (policy s.session) s.session.materialise s.decoded) (ids : List InstrumentId) :
    s.quotesAll ids =
      (ids.map (fun id => if (s.session.entries.lookup id).isSome ∧ id ∉ s.decoded.map (·.1) then
        .error s.session.shortRead else s.session.quotes id), s) := by
  induction ids with
  | nil => rfl
  | cons id ids ih =>
      have hanswer : shown (if (s.session.entries.lookup id).isSome ∧ id ∉ s.decoded.map (·.1) then
          .error s.session.shortRead else s.session.materialise id) =
          if (s.session.entries.lookup id).isSome ∧ id ∉ s.decoded.map (·.1) then .error s.session.shortRead
          else s.session.quotes id := by
        rw [session_quotes_eq]
        split_ifs <;> rfl
      rw [quotesAll, quotes_eq, materialise_of_failed hbad hfaithful]
      dsimp only
      rw [ih, List.map_cons, hanswer]

/-! ## Memory -/

/-- What has been decoded of a faithful cache has the rows the directory says. -/
theorem decodedBytes_eq {s : LazySession}
    (h : Memo.Faithful (policy s.session) s.session.materialise s.decoded) :
    s.decodedBytes = (s.decoded.map (fun x => ((s.session.entries.lookup x.1).map (fun e => e.rowCount.toNat)).getD 0)).sum *
      rowBytes := by
  rw [← List.sum_map_mul_right]
  refine congrArg List.sum (List.map_congr_left (fun x hx => ?_))
  obtain ⟨⟨e, he⟩, hmaterialise⟩ := policy_keep_eq_some.mp (h.kept x.1 x.2 hx)
  rw [VfdaySession.size_of_materialise he hmaterialise, he]
  rfl

end LazySession

/-- The requests up to the first one whose read falls short. -/
def VfdaySession.wholeReads (s : VfdaySession) (ids : List InstrumentId) : List InstrumentId :=
  ids.takeWhile (fun id => !s.readsShort id)

/-- The answer to a request that comes after the requests `whole` and one whose read fell short: of the listed
    contracts, those that were decoded before it are answered, and no other. -/
def VfdaySession.answerAfter (s : VfdaySession) (whole : List InstrumentId) (id : InstrumentId) :
    Except Error QuoteColumns :=
  if id ∈ s.instruments ∧ ¬ (id ∈ whole ∧ (s.quotes id).toOption.isSome) then .error s.shortRead else s.quotes id

theorem VfdaySession.drop_wholeReads (s : VfdaySession) (ids : List InstrumentId) :
    ids.drop (s.wholeReads ids).length = ids.dropWhile (fun id => !s.readsShort id) := by
  have hsplit := List.takeWhile_append_dropWhile (p := fun id => !s.readsShort id) (l := ids)
  exact (congrArg (List.drop (s.wholeReads ids).length) hsplit.symm).trans List.drop_left

/-- **Decoding on demand shows nothing** until a read falls short. Whatever instruments a session of an accepted file
    is asked for, in whatever order and how often, up to the first short read the answers are those of a session that
    decodes anew each time; from then on a listed contract is answered if it was decoded before, and is a short read
    if not. What has been decoded at the end is what was asked for before the short read, is listed and decodes, once
    each; it takes no more memory than the rows the file has. Only a blob whose end is past the largest 64-bit offset
    reads short. -/
theorem decoded_on_demand {path : String} {file : Bytes} {r r' : InstrumentRegistry} {s : VfdaySession}
    (h : VfdaySession.openFile path file r = (.ok s, r')) (ids : List InstrumentId) :
    ((LazySession.mk s [] false).quotesAll ids).1 =
      (s.wholeReads ids).map s.quotes ++ (ids.drop (s.wholeReads ids).length).map (s.answerAfter (s.wholeReads ids)) ∧
    (((LazySession.mk s [] false).quotesAll ids).2.decoded.map (·.1)).Nodup ∧
    (∀ id, id ∈ ((LazySession.mk s [] false).quotesAll ids).2.decoded.map (·.1) ↔
      id ∈ s.wholeReads ids ∧ id ∈ s.instruments ∧ ∃ c, s.quotes id = .ok c) ∧
    ((LazySession.mk s [] false).quotesAll ids).2.decodedInstruments ≤ s.instruments.length ∧
    ((LazySession.mk s [] false).quotesAll ids).2.decodedBytes ≤ s.totalRows.toNat * LazySession.rowBytes ∧
    ((∀ x ∈ s.entries, x.2.blobOffset.toInt + x.2.blobBytes.toNat < 2 ^ 63) → s.wholeReads ids = ids) := by
  have hlisted := VfdaySession.listed_of_openFile h
  generalize hwhole : s.wholeReads ids = whole
  have hreads : ∀ id ∈ whole, s.readsShort id = false := by
    intro id hid
    rw [← hwhole] at hid
    simpa using List.mem_takeWhile_imp hid
  have hrun := (Memo.Faithful.nil (p := LazySession.policy s) (f := s.materialise)).run whole
  have hanswers := (Memo.Faithful.nil (p := LazySession.policy s) (f := s.materialise)).answers whole
  have hkeys : ∀ id, id ∈ ((Memo.askAll (LazySession.policy s) s.materialise [] whole).2).map (·.1) ↔
      id ∈ whole ∧ id ∈ s.instruments ∧ ∃ c, s.quotes id = .ok c := by
    intro id
    rw [Memo.mem_keys_askAll, Option.isSome_iff_exists]
    simp only [List.map_nil, List.not_mem_nil, false_or, LazySession.policy_keep_eq_some]
    rw [exists_and_left, ← Option.isSome_iff_exists, VfdaySession.lookup_isSome_iff, hlisted.keys]
    have hquotes : (∃ c, s.materialise id = .ok c) ↔ ∃ c, s.quotes id = .ok c := by
      rw [LazySession.session_quotes_eq]
      unfold LazySession.shown
      cases s.materialise id with
      | error x => simp [Functor.map, Except.map]
      | ok c => simp [Functor.map, Except.map]
    rw [hquotes]
  have hbefore := LazySession.quotesAll_eq (s := LazySession.mk s [] false) rfl hreads
  dsimp only at hbefore
  generalize (Memo.askAll (LazySession.policy s) s.materialise [] whole).2 = table at hrun hkeys hbefore
  rw [hanswers, List.map_map] at hbefore
  have hshown : whole.map (LazySession.shown ∘ s.materialise) = whole.map s.quotes :=
    List.map_congr_left (fun id _ => (LazySession.session_quotes_eq s id).symm)
  rw [hshown] at hbefore
  -- what comes after the first short read
  have hafter : ∃ failed, (LazySession.mk s [] false).quotesAll ids =
      (whole.map s.quotes ++ (ids.drop whole.length).map (s.answerAfter whole), LazySession.mk s table failed) := by
    have hsplit : ids = whole ++ ids.drop whole.length := by
      rw [← hwhole, VfdaySession.drop_wholeReads]
      exact List.takeWhile_append_dropWhile.symm
    have hhead : ∀ id ∈ (ids.drop whole.length).head?, s.readsShort id = true := by
      intro id hid
      rw [← hwhole, VfdaySession.drop_wholeReads] at hid
      have hfirst := List.head?_dropWhile_not (fun id => !s.readsShort id) ids
      rw [Option.mem_def.mp hid] at hfirst
      simpa using hfirst
    generalize ids.drop whole.length = rest at hsplit hhead
    rw [hsplit, LazySession.quotesAll_append, hbefore]
    dsimp only
    cases rest with
    | nil => exact ⟨false, rfl⟩
    | cons id rest =>
        have hshort := hhead id rfl
        obtain ⟨⟨e, he⟩, herror⟩ := VfdaySession.materialise_of_short hshort
        have hstep := LazySession.materialise_of_short (s := LazySession.mk s table false) rfl hrun hshort
        have hrest := LazySession.quotesAll_of_failed (s := LazySession.mk s table true) rfl hrun rest
        refine ⟨true, ?_⟩
        rw [LazySession.quotesAll, LazySession.quotes_eq, hstep]
        dsimp only
        rw [hrest]
        have hfirst : s.answerAfter whole id = .error s.shortRead := by
          unfold VfdaySession.answerAfter
          rw [LazySession.session_quotes_eq, herror]
          split_ifs <;> rfl
        have hothers : ∀ id, (if (s.entries.lookup id).isSome ∧ id ∉ table.map (·.1) then .error s.shortRead
            else s.quotes id) = s.answerAfter whole id := by
          intro id
          unfold VfdaySession.answerAfter
          refine if_congr ?_ rfl rfl
          rw [VfdaySession.lookup_isSome_iff, hlisted.keys, hkeys]
          refine and_congr_right (fun hid => not_congr ?_)
          rw [Option.isSome_iff_exists]
          have hok : (∃ c, (s.quotes id).toOption = some c) ↔ ∃ c, s.quotes id = .ok c := by
            cases s.quotes id <;> simp [Except.toOption]
          rw [hok]
          exact ⟨fun hmem => ⟨hmem.1, hmem.2.2⟩, fun hmem => ⟨hmem.1, hid, hmem.2⟩⟩
        rw [List.map_cons, hfirst, List.map_congr_left (fun id _ => hothers id)]
        rfl
  obtain ⟨failed, hall⟩ := hafter
  have hsub : table.map (·.1) ⊆ s.entries.map (·.1) := by
    intro id hid
    rw [hlisted.keys]
    exact ((hkeys id).mp hid).2.1
  rw [hall]
  refine ⟨rfl, hrun.nodup, hkeys, ?_, ?_, ?_⟩
  · have hlen := (hrun.nodup.subperm hsub).length_le
    rw [hlisted.keys, List.length_map] at hlen
    exact hlen
  · rw [LazySession.decodedBytes_eq hrun, ← hlisted.rows]
    refine Nat.mul_le_mul_right _ ?_
    have hle := Memo.sum_lookup_le (fun e : Entry => e.rowCount.toNat) (hlisted.keys ▸ hlisted.nodup) hrun.nodup hsub
    rw [List.map_map] at hle
    exact hle
  · intro hend
    rw [← hwhole]
    refine List.takeWhile_eq_self_iff.mpr (fun id _ => ?_)
    rw [Bool.not_eq_true', ← Bool.not_eq_true]
    intro hshort
    obtain ⟨e, he, hwrap⟩ := VfdaySession.wraps_of_readsShort h hshort
    exact absurd (hend _ (Memo.mem_of_lookup he)) (not_lt.mpr hwrap)

/-! ## A blob past the end of the file -/

/-- A contract of two rows, and one whose blob is said to begin at the largest offset. -/
def besideWrapped : Writer where
  blob := (timedItem [1, 2]).writer.blob
  strings := (timedItem [1, 2]).writer.strings
  table := (timedItem [1, 2]).writer.table ++
    [{ underlyingOffset := 0, underlyingLength := 0, kind := 0, right := 0, expiry := 0, strikeMinor := 0, lotSize := 1,
       tickMinor := 5 }]
  directory := (timedItem [1, 2]).writer.directory ++
    [{ tableIndex := 1, rowCount := 0, blobOffset := Int64.maxValue, blobBytes := 1, blobCrc := 0, firstTs := 0,
       lastTs := 0 }]

theorem timedItem_fits : (timedItem [1, 2]).Fits where
  aligned := by constructor <;> rfl
  rows := by decide
  blob := lt_of_le_of_lt (length_encodeColumns_le (c := flatQuotes [1, 2]) (by constructor <;> rfl)) (by decide)
  times := by decide

theorem besideWrapped_fits : besideWrapped.Fits [] where
  table := show 2 * 28 < 2 ^ 32 by decide
  strings := show 1 < 2 ^ 32 by decide
  timeline := show 0 < 2 ^ 32 by decide
  directory := show 2 * 40 < 2 ^ 32 by decide
  blob := lt_trans timedItem_fits.blob (by decide)

/-- Its session has rows to count. -/
def twoRows : SessionData := { silentSession with totalObservations := 2 }

/-- The file is accepted; the first contract decodes, and the second reads short. -/
theorem besideWrapped_opens : ∃ s r,
    VfdaySession.openFile "day.vfday" (besideWrapped.image twoRows []).bytes {} = (.ok s, r) ∧ s.instruments = [0, 1] ∧
      s.quotes 0 = .ok (flatQuotes [1, 2]) ∧ s.readsShort 0 = false ∧ s.readsShort 1 = true := by
  have hdescribed : (besideWrapped.image twoRows []).Described := besideWrapped_fits.described rfl
  have hids : (VfdaySession.registerMany (besideWrapped.image twoRows []).metadata besideWrapped.table {}).1 = [0, 1] := rfl
  have hrowCount : (UInt32.ofNat (flatQuotes [1, 2]).size).toNat = 2 := by decide
  have hblob : (UInt32.ofNat (timedItem [1, 2]).blob.length).toNat = (timedItem [1, 2]).blob.length :=
    UInt32.toNat_ofNat_of_lt' timedItem_fits.blob
  have hpayload : besideWrapped.blob = (timedItem [1, 2]).blob := List.nil_append _
  have hoffset : (Int64.ofNat FileHeader.size).toInt = (FileHeader.size : Nat) := Int64.toInt_ofNat_of_lt (by decide)
  have htableOffset : (besideWrapped.image twoRows []).metadata.header.tableOffset.toInt =
      (FileHeader.size + (timedItem [1, 2]).blob.length : Nat) := by
    have hlt := timedItem_fits.blob
    rw [← hpayload] at hlt ⊢
    exact Int64.toInt_ofNat_of_lt (by unfold FileHeader.size; omega)
  -- the healthy contract's blob lies behind the header; the other's end wraps to a negative number
  have hchecked : ∃ ts, List.Forall₂ (fun e t =>
      VfdaySession.checkEntry "day.vfday" (besideWrapped.image twoRows []).metadata e = .ok t)
        besideWrapped.directory ts ∧ ts = besideWrapped.table := by
    refine ⟨_, .cons (VfdaySession.checkEntry_eq_ok.mpr ⟨by decide, rfl, by decide, ?_, by decide, by decide⟩)
      (.cons (VfdaySession.checkEntry_eq_ok.mpr ⟨by decide, rfl, by decide, ?_, by decide, by decide⟩) .nil), rfl⟩
    · have hend := toInt_add_toInt64 hoffset hblob (by
        have hlt := timedItem_fits.blob
        unfold FileHeader.size
        omega)
      rw [Int64.lt_iff_toInt_lt, htableOffset]
      exact not_lt.mpr hend.le
    · have hwraps : Int64.maxValue + (1 : UInt32).toUInt64.toInt64 = Int64.minValue := by decide
      rw [hwraps, Int64.lt_iff_toInt_lt]
      have hlow := (besideWrapped.image twoRows []).metadata.header.tableOffset.le_toInt
      have hmin : Int64.minValue.toInt = -2 ^ 63 := by decide
      omega
  obtain ⟨ts, hchecked, rfl⟩ := hchecked
  have hopen := hdescribed.openFile_eq_ok.mpr ⟨_, hchecked, by rw [hids]; decide, rfl, rfl, rfl⟩
  have hread : readAt (besideWrapped.image twoRows []).bytes (Int64.ofNat FileHeader.size)
      (UInt32.ofNat (timedItem [1, 2]).blob.length).toNat = some (timedItem [1, 2]).blob := by
    have hheader : (headerOf twoRows besideWrapped []).bytes.length = FileHeader.size := FileHeader.length_bytes rfl
    have hread : readAt ((headerOf twoRows besideWrapped []).bytes ++ (besideWrapped.blob ++
        (besideWrapped.table.flatMap TableEntry.bytes ++ (besideWrapped.strings ++
          (([] : List Int64).flatMap (fun t => put64 t.toUInt64) ++ besideWrapped.directory.flatMap DirEntry.bytes)))))
        (Int64.ofNat FileHeader.size) besideWrapped.blob.length =
          some (besideWrapped.blob.take besideWrapped.blob.length) :=
      readAt_append (hheader ▸ hoffset) le_rfl
    rw [List.take_length, hpayload] at hread
    rw [hblob]
    exact hread
  refine ⟨_, _, hopen, hids, ?_, ?_, ?_⟩
  · have hcrc : crc32 (timedItem [1, 2]).blob = crc32 ((timedItem [1, 2]).blob.take
        (UInt32.ofNat (timedItem [1, 2]).blob.length).toNat) := by
      rw [hblob, List.take_length]
    have hcolumns : VfdaySession.decodeColumns "day.vfday" (VfdaySession.entryOf ((timedItem [1, 2]).dirEntry 0 0))
        (encodeColumns (flatQuotes [1, 2])) = .ok (flatQuotes [1, 2]) :=
      VfdaySession.decodeColumns_encodeColumns timedItem_fits.aligned hrowCount.symm rfl rfl
    exact VfdaySession.quotes_eq timedItem_fits.aligned
      ((VfdaySession.materialise_eq (e := VfdaySession.entryOf ((timedItem [1, 2]).dirEntry 0 0)) rfl hread hcrc).trans
        hcolumns)
  · refine (VfdaySession.readsShort_eq_some (e := VfdaySession.entryOf ((timedItem [1, 2]).dirEntry 0 0)) rfl).trans ?_
    exact congrArg Option.isNone hread
  · refine (VfdaySession.readsShort_eq_some (e := ⟨1, 0, Int64.maxValue, 1, 0, 0, 0⟩) rfl).trans ?_
    have hlen : (besideWrapped.image twoRows []).bytes.length =
        FileHeader.size + besideWrapped.blob.length + 2 * 28 + 1 + 0 * 8 + 2 * 40 := Image.length_bytes rfl
    have hlast : Int64.maxValue.toInt.toNat = 2 ^ 63 - 1 := by decide
    have hshort : ((besideWrapped.image twoRows []).bytes.drop (2 ^ 63 - 1)).length < 1 := by
      have hlt := timedItem_fits.blob
      rw [← hpayload] at hlt
      rw [List.length_drop, hlen]
      unfold FileHeader.size
      omega
    have hread : readAt (besideWrapped.image twoRows []).bytes Int64.maxValue 1 = none := by
      unfold readAt
      dsimp only
      rw [hlast, if_pos hshort]
    exact congrArg Option.isNone hread

/-- **One short read, and no other contract is read.** Asked for first, the healthy contract is answered, also later on;
    asked for behind the other one, it is not. -/
theorem decoded_on_demand_wrapped : ∃ file s r,
    VfdaySession.openFile "day.vfday" file {} = (.ok s, r) ∧ s.quotes 0 = .ok (flatQuotes [1, 2]) ∧
      ((LazySession.mk s [] false).quotesAll [0, 7, 1, 0]).1 =
        [s.quotes 0, s.quotes 7, .error s.shortRead, s.quotes 0] ∧
      ((LazySession.mk s [] false).quotesAll [1, 0, 7]).1 = [.error s.shortRead, .error s.shortRead, s.quotes 7] := by
  obtain ⟨s, r, hopen, hlisted, hzero, hwhole, hshort⟩ := besideWrapped_opens
  have hseven : s.readsShort 7 = false := by
    have hnone : s.entries.lookup 7 = none := by
      rw [← Option.not_isSome_iff_eq_none, VfdaySession.lookup_isSome_iff,
        (VfdaySession.listed_of_openFile hopen).keys, hlisted]
      decide
    unfold VfdaySession.readsShort
    rw [hnone]
  have hfirst : s.wholeReads [0, 7, 1, 0] = [0, 7] := by
    unfold VfdaySession.wholeReads
    simp [hwhole, hseven, hshort]
  have hsecond : s.wholeReads [1, 0, 7] = [] := by
    unfold VfdaySession.wholeReads
    simp [hshort]
  refine ⟨_, s, r, hopen, hzero, ?_, ?_⟩
  · rw [(decoded_on_demand hopen [0, 7, 1, 0]).1, hfirst]
    simp [VfdaySession.answerAfter, hlisted, hzero, Except.toOption]
  · rw [(decoded_on_demand hopen [1, 0, 7]).1, hsecond]
    simp [VfdaySession.answerAfter, hlisted]

end Volforge
