import Volforge.Store.Correctness.Bounds
import Volforge.Store.Correctness.RoundTrip

/-!
# `Store.Correctness.Trust` — what is known of the contents of an accepted file

A matching checksum is all that is asked of a column, beyond its length and its first and last time. What
follows for the session of an arbitrary accepted file is `Honoured`. The rest of what a session promises is not
checked: the session has it exactly when the bytes of the file do (`accepted_file_honours_iff`).
-/

namespace Volforge

namespace VfdaySession

theorem nextColumn_length {path : String} {rowCount : UInt32} {p rest : Bytes} {values : List Int64}
    (h : nextColumn path rowCount p = .ok (values, rest)) : values.length = rowCount.toNat := by
  unfold nextColumn at h
  cases hdecode : decodeColumn p with
  | none =>
      rw [hdecode] at h
      cases h
  | some result =>
      obtain ⟨used, values'⟩ := result
      rw [hdecode] at h
      dsimp only at h
      split_ifs at h with hlen
      · cases h
        exact not_not.mp hlen

/-- What is checked of the columns of a blob. -/
structure ColumnsChecked (e : Entry) (c : QuoteColumns) : Prop where
  aligned : c.Aligned
  rows : c.size = e.rowCount.toNat
  range : c.ts ≠ [] → c.ts.headD 0 = e.first ∧ c.ts.getLastD 0 = e.last

theorem decodeColumns_checked {path : String} {e : Entry} {p : Bytes} {c : QuoteColumns}
    (h : decodeColumns path e p = .ok c) : ColumnsChecked e c := by
  unfold decodeColumns at h
  obtain ⟨⟨ts, p₁⟩, hts, h⟩ := Run.bind_eq_ok.mp h
  obtain ⟨⟨last, p₂⟩, hlast, h⟩ := Run.bind_eq_ok.mp h
  obtain ⟨⟨bid, p₃⟩, hbid, h⟩ := Run.bind_eq_ok.mp h
  obtain ⟨⟨ask, p₄⟩, hask, h⟩ := Run.bind_eq_ok.mp h
  obtain ⟨⟨bidQty, p₅⟩, hbidQty, h⟩ := Run.bind_eq_ok.mp h
  obtain ⟨⟨askQty, p₆⟩, haskQty, h⟩ := Run.bind_eq_ok.mp h
  obtain ⟨⟨lastQty, p₇⟩, hlastQty, h⟩ := Run.bind_eq_ok.mp h
  obtain ⟨⟨openInterest, p₈⟩, hinterest, h⟩ := Run.bind_eq_ok.mp h
  obtain ⟨_, _, h⟩ := Run.bind_eq_ok.mp h
  obtain ⟨_, hrange, h⟩ := Run.bind_eq_ok.mp h
  cases h
  have hsize : ts.length = e.rowCount.toNat := nextColumn_length hts
  have hwide : ∀ {values : List Int64}, values.length = e.rowCount.toNat →
      (values.map (·.toInt32)).length = ts.length := by
    intro values hvalues
    rw [List.length_map, hvalues, hsize]
  refine ⟨⟨hwide (nextColumn_length hlast), hwide (nextColumn_length hbid), hwide (nextColumn_length hask),
    hwide (nextColumn_length hbidQty), hwide (nextColumn_length haskQty), hwide (nextColumn_length hlastQty),
    (nextColumn_length hinterest).trans hsize.symm⟩, hsize, fun hne => ?_⟩
  have hno := failIf_eq_ok.mp hrange
  rw [not_and, not_or, not_not, not_not] at hno
  exact hno hne

/-- The times of a blob are its first column. -/
theorem decodeColumns_times {path : String} {e : Entry} {p : Bytes} {c : QuoteColumns}
    (h : decodeColumns path e p = .ok c) : ∃ used, decodeColumn p = some (used, c.ts) := by
  unfold decodeColumns at h
  obtain ⟨⟨ts, p'⟩, hts, h⟩ := Run.bind_eq_ok.mp h
  obtain ⟨used, hdecode⟩ : ∃ used, decodeColumn p = some (used, ts) := by
    unfold nextColumn at hts
    cases hdecode : decodeColumn p with
    | none =>
        rw [hdecode] at hts
        cases hts
    | some result =>
        rw [hdecode] at hts
        dsimp only at hts
        split_ifs at hts
        cases hts
        exact ⟨_, rfl⟩
  refine ⟨used, ?_⟩
  obtain ⟨_, _, h⟩ := Run.bind_eq_ok.mp h
  obtain ⟨_, _, h⟩ := Run.bind_eq_ok.mp h
  obtain ⟨_, _, h⟩ := Run.bind_eq_ok.mp h
  obtain ⟨_, _, h⟩ := Run.bind_eq_ok.mp h
  obtain ⟨_, _, h⟩ := Run.bind_eq_ok.mp h
  obtain ⟨_, _, h⟩ := Run.bind_eq_ok.mp h
  obtain ⟨_, _, h⟩ := Run.bind_eq_ok.mp h
  obtain ⟨_, _, h⟩ := Run.bind_eq_ok.mp h
  obtain ⟨_, _, h⟩ := Run.bind_eq_ok.mp h
  cases h
  exact hdecode

/-- What `quotes` answers with are the columns of the blob. -/
theorem quotes_eq_ok {s : VfdaySession} {id : InstrumentId} {e : Entry} {c : QuoteColumns}
    (hlookup : s.entries.lookup id = some e) (h : s.quotes id = .ok c) :
    ∃ raw, readAt s.file e.blobOffset e.blobBytes.toNat = some raw ∧ decodeColumns s.path e raw = .ok c := by
  unfold quotes at h
  obtain ⟨c', hmaterialise, h⟩ := Run.bind_eq_ok.mp h
  unfold materialise at hmaterialise
  rw [hlookup] at hmaterialise
  dsimp only at hmaterialise
  cases hread : readAt s.file e.blobOffset e.blobBytes.toNat with
  | none =>
      rw [hread] at hmaterialise
      cases hmaterialise
  | some raw =>
      rw [hread] at hmaterialise
      dsimp only at hmaterialise
      split_ifs at hmaterialise
      refine ⟨raw, rfl, ?_⟩
      by_cases hempty : c'.ts.isEmpty = true
      · rw [if_pos hempty] at h
        cases h
        rw [hmaterialise, eq_default_of_isEmpty (decodeColumns_checked hmaterialise).aligned hempty]
      · rw [if_neg hempty] at h
        cases h
        exact hmaterialise

/-- What `quotes` has checked of the columns it answers with. -/
theorem quotes_checked {s : VfdaySession} {id : InstrumentId} {e : Entry} {c : QuoteColumns}
    (hlookup : s.entries.lookup id = some e) (h : s.quotes id = .ok c) : ColumnsChecked e c := by
  obtain ⟨_, _, hdecode⟩ := quotes_eq_ok hlookup h
  exact decodeColumns_checked hdecode

/-- The entries of an accepted file are those of its directory, one for each contract. -/
theorem entries_of_openFile {path : String} {file : Bytes} {r r' : InstrumentRegistry} {s : VfdaySession}
    (h : openFile path file r = (.ok s, r')) : ∃ m ts, Accepted path file m ∧ s.file = file ∧
      s.timeline = m.timeline.map (·.toInt) ∧ s.instruments.Nodup ∧
      List.Forall₂ (fun e t => checkEntry path m e = .ok t) m.directory ts ∧
      List.Forall₂ (fun id e => s.entries.lookup id = some (entryOf e)) s.instruments m.directory := by
  obtain ⟨m, ts, hm, hts, hnodup, rfl, _, _⟩ := openFile_eq_ok.mp h
  refine ⟨m, ts, hm, rfl, rfl, hnodup, hts, List.forall₂_iff_get.mpr ⟨?_, ?_⟩⟩
  · exact (length_registerMany m ts r).trans hts.length_eq.symm
  · intro n hn hn'
    refine lookup_zip (n := n) hnodup (List.getElem?_eq_getElem hn) ?_
    rw [List.getElem?_map, List.getElem?_eq_getElem hn']
    rfl

end VfdaySession

/-! ## What is checked -/

/-- What an accepted file promises. -/
structure Honoured (s : VfdaySession) : Prop where
  nodup : s.instruments.Nodup
  timeline : s.timeline.Pairwise (· < ·)
  columns : ∀ id ∈ s.instruments, ∀ c, s.quotes id = .ok c → ∃ e, s.entries.lookup id = some e ∧
    c.Aligned ∧ c.size = e.rowCount.toNat ∧ ¬ e.last < e.first ∧
    (c.ts ≠ [] → c.ts.headD 0 = e.first ∧ c.ts.getLastD 0 = e.last)

/-- **An accepted file**: its contracts are listed once, its timeline is strictly ascending, and the eight columns
    of an instrument that decodes have the row count of the directory, and its first and last time. -/
theorem accepted_file_honours {path : String} {file : Bytes} {r r' : InstrumentRegistry} {s : VfdaySession}
    (h : VfdaySession.openFile path file r = (.ok s, r')) : Honoured s := by
  obtain ⟨m, ts, hm, _, htimeline, hnodup, hts, hentries⟩ := VfdaySession.entries_of_openFile h
  refine ⟨hnodup, htimeline ▸ (ascending_iff m.timeline).mp hm.ascending, ?_⟩
  intro id hid c hquotes
  obtain ⟨e, he, hlookup⟩ := IdTable.exists_of_mem_left hentries hid
  obtain ⟨t, _, ht⟩ := IdTable.exists_of_mem_left hts he
  have hchecked := VfdaySession.checkEntry_eq_ok.mp ht
  obtain ⟨haligned, hrows, hrange⟩ := VfdaySession.quotes_checked hlookup hquotes
  exact ⟨_, hlookup, haligned, hrows, hchecked.times, hrange⟩

/-! ## What is taken on trust -/

/-- What a session promises of its instruments, its columns and its timeline. -/
structure SessionContract (s : VfdaySession) : Prop where
  observed : ∀ id ∈ s.instruments, ∀ c, s.quotes id = .ok c → 0 < c.size
  ascending : ∀ id ∈ s.instruments, ∀ c, s.quotes id = .ok c → c.ts.Pairwise (fun a b => a.toInt ≤ b.toInt)
  aligned : ∀ id ∈ s.instruments, ∀ c, s.quotes id = .ok c → c.Aligned
  timeline : s.timeline.Pairwise (· < ·)
  times : ∀ t, t ∈ s.timeline ↔ ∃ id ∈ s.instruments, ∃ c, s.quotes id = .ok c ∧ t ∈ c.ts.map (·.toInt)

/-- The times that the blob of an entry stores: its first column. -/
def Stores (file : Bytes) (e : DirEntry) (ts : List Int64) : Prop :=
  ∃ used, decodeColumn ((file.drop e.blobOffset.toInt.toNat).take e.blobBytes.toNat) = some (used, ts)

/-- What the bytes of a file have to say for themselves: every contract has rows, no stored times go back, and the
    timeline lists the times that are stored. -/
structure Trustworthy (file : Bytes) (m : Metadata) : Prop where
  rows : ∀ e ∈ m.directory, e.rowCount ≠ 0
  ascending : ∀ e ∈ m.directory, ∀ ts, Stores file e ts → ts.Pairwise (fun a b => a.toInt ≤ b.toInt)
  timeline : ∀ t, t ∈ m.timeline ↔ ∃ e ∈ m.directory, ∃ ts, Stores file e ts ∧ t ∈ ts

/-- **An accepted file honours the contract of a session** exactly when its bytes do. -/
theorem accepted_file_honours_iff {path : String} {file : Bytes} {r r' : InstrumentRegistry} {s : VfdaySession}
    (h : VfdaySession.openFile path file r = (.ok s, r')) (hdecodes : ∀ id ∈ s.instruments, ∃ c, s.quotes id = .ok c) :
    ∃ m, VfdaySession.readMetadata path file = .ok m ∧ (SessionContract s ↔ Trustworthy file m) := by
  have hhonoured := accepted_file_honours h
  obtain ⟨m, _, hm, hfile, htimeline, _, _, hentries⟩ := VfdaySession.entries_of_openFile h
  refine ⟨m, VfdaySession.readMetadata_eq_ok.mpr hm, ?_⟩
  -- each contract has one entry, and its times are the ones the entry's blob stores
  have hpairs : List.Forall₂ (fun id e => ∃ c, s.quotes id = .ok c ∧ c.size = e.rowCount.toNat ∧
      ∀ ts, Stores file e ts ↔ ts = c.ts) s.instruments m.directory := by
    refine (IdTable.with_mem hentries).imp ?_
    rintro id e ⟨⟨hid, _⟩, hlookup⟩
    obtain ⟨c, hc⟩ := hdecodes id hid
    obtain ⟨raw, hread, hdecode⟩ := VfdaySession.quotes_eq_ok hlookup hc
    obtain ⟨used, hused⟩ := VfdaySession.decodeColumns_times hdecode
    obtain ⟨_, hraw, _⟩ := readAt_eq_some hread
    rw [hraw, hfile] at hused
    refine ⟨c, hc, (VfdaySession.quotes_checked hlookup hc).rows, fun ts => ⟨?_, ?_⟩⟩
    · rintro ⟨used', hts⟩
      exact (Prod.mk.inj (Option.some.inj (hts.symm.trans hused))).2
    · rintro rfl
      exact ⟨used, hused⟩
  have hinjective : Function.Injective Int64.toInt := fun _ _ heq => Int64.toInt_inj.mp heq
  have hrowCount : ∀ n : UInt32, n ≠ 0 ↔ 0 < n.toNat := by
    intro n
    rw [Nat.pos_iff_ne_zero, ne_eq, ne_eq, ← UInt32.toNat_inj, UInt32.toNat_zero]
  constructor
  · intro hcontract
    refine ⟨fun e he => ?_, fun e he ts hts => ?_, fun t => ?_⟩
    · obtain ⟨id, hid, c, hc, hsize, _⟩ := IdTable.exists_of_mem_right hpairs he
      exact (hrowCount _).mpr (hsize ▸ hcontract.observed id hid c hc)
    · obtain ⟨id, hid, c, hc, _, hstores⟩ := IdTable.exists_of_mem_right hpairs he
      exact (hstores ts).mp hts ▸ hcontract.ascending id hid c hc
    · have htimes := hcontract.times t.toInt
      rw [htimeline, List.mem_map_of_injective hinjective] at htimes
      rw [htimes]
      constructor
      · rintro ⟨id, hid, c, hc, hmem⟩
        obtain ⟨e, he, c', hc', _, hstores⟩ := IdTable.exists_of_mem_left hpairs hid
        rw [hc] at hc'
        cases hc'
        exact ⟨e, he, c.ts, (hstores _).mpr rfl, (List.mem_map_of_injective hinjective).mp hmem⟩
      · rintro ⟨e, he, ts, hts, hmem⟩
        obtain ⟨id, hid, c, hc, _, hstores⟩ := IdTable.exists_of_mem_right hpairs he
        rw [(hstores ts).mp hts] at hmem
        exact ⟨id, hid, c, hc, List.mem_map_of_mem hmem⟩
  · intro htrust
    refine ⟨fun id hid c hc => ?_, fun id hid c hc => ?_, fun id hid c hc => ?_, hhonoured.timeline, fun t => ?_⟩
    · obtain ⟨e, he, c', hc', hsize, _⟩ := IdTable.exists_of_mem_left hpairs hid
      rw [hc] at hc'
      cases hc'
      rw [hsize]
      exact (hrowCount _).mp (htrust.rows e he)
    · obtain ⟨e, he, c', hc', _, hstores⟩ := IdTable.exists_of_mem_left hpairs hid
      rw [hc] at hc'
      cases hc'
      exact htrust.ascending e he c.ts ((hstores _).mpr rfl)
    · obtain ⟨_, _, haligned, _⟩ := hhonoured.columns id hid c hc
      exact haligned
    · rw [htimeline, List.mem_map]
      constructor
      · rintro ⟨x, hx, rfl⟩
        obtain ⟨e, he, ts, hts, hmem⟩ := (htrust.timeline x).mp hx
        obtain ⟨id, hid, c, hc, _, hstores⟩ := IdTable.exists_of_mem_right hpairs he
        rw [(hstores ts).mp hts] at hmem
        exact ⟨id, hid, c, hc, List.mem_map_of_mem hmem⟩
      · rintro ⟨id, hid, c, hc, hmem⟩
        obtain ⟨x, hx, rfl⟩ := List.mem_map.mp hmem
        obtain ⟨e, he, c', hc', _, hstores⟩ := IdTable.exists_of_mem_left hpairs hid
        rw [hc] at hc'
        cases hc'
        exact ⟨x, (htrust.timeline x).mpr ⟨e, he, c.ts, (hstores _).mpr rfl, hx⟩, rfl⟩

/-! ## Files of one instrument -/

/-- A file of one item, with a timeline of its own. -/
theorem Item.opens {i : Item} (hi : i.Fits) (hname : i.name.length < 2 ^ 32) {times : List Int64}
    (htimes : ascending times = true) (hcount : times.length < 2 ^ 32) (path : String) : ∃ file s r id,
      VfdaySession.openFile path file {} = (.ok s, r) ∧ s.instruments = [id] ∧ s.quotes id = .ok i.columns ∧
      s.timeline = times.map (·.toInt) := by
  have hlen : (times.map (·.toInt)).length < 2 ^ 32 := by rwa [List.length_map]
  have hfits : i.writer.Fits (times.map (·.toInt)) := Item.writer_fits hi hname hlen
  have hholds : i.writer.Holds [i] := Item.writer_holds hname
  have hitems : ∀ j ∈ [i], j.Fits := by
    intro j hj
    rw [List.mem_singleton.mp hj]
    exact hi
  have hstored : (times.map (·.toInt)).map Int64.ofInt = times := by
    rw [List.map_map]
    simp [Function.comp_def]
  let session : SessionData := { silentSession with totalObservations := i.columns.size }
  have hrows : session.totalObservations = ([i].map (·.columns.size)).sum := rfl
  have hstored' : ascending ((times.map (·.toInt)).map Int64.ofInt) = true := by rwa [hstored]
  have hopen := hholds.opens hfits hitems hstored' (List.nodup_singleton _) hrows path
    InstrumentRegistry.sound_empty
  have hnodup := hholds.nodup_ids (List.nodup_singleton _) session (times.map (·.toInt)) InstrumentRegistry.sound_empty
  have hanswers := hholds.answers hfits hitems path hnodup
  have htimeline : (i.writer.opened session (times.map (·.toInt)) path {}).timeline = times.map (·.toInt) :=
    congrArg (List.map Int64.toInt) hstored
  obtain ⟨id, hid⟩ := List.length_eq_one_iff.mp hanswers.length_eq
  rw [hid] at hanswers
  obtain ⟨⟨hquotes, _⟩, _⟩ := List.forall₂_cons.mp hanswers
  exact ⟨_, _, _, id, hopen, hid, hquotes, htimeline⟩

/-- A contract with these times. -/
def timedItem (times : List Int64) : Item where
  spec := { underlying := 0 }
  name := [78]
  columns := flatQuotes times

/-- The times 1, 2 and 2 with the timeline 1, 2: the bytes keep what the session promises. -/
theorem accepted_file_honours_iff_flat : ∃ file s r m,
    VfdaySession.openFile "2025-07-01.vfday" file {} = (.ok s, r) ∧
      VfdaySession.readMetadata "2025-07-01.vfday" file = .ok m ∧ SessionContract s ∧ Trustworthy file m := by
  have hfits : (timedItem [1, 2, 2]).Fits :=
    ⟨by constructor <;> rfl, by decide,
      lt_of_le_of_lt (length_encodeColumns_le (c := flatQuotes [1, 2, 2]) (by constructor <;> rfl)) (by decide), by decide⟩
  obtain ⟨file, s, r, id, hopen, hid, hquotes, htimeline⟩ :=
    Item.opens hfits (by decide) (show ascending [1, 2] = true by decide) (by decide) "2025-07-01.vfday"
  have hall : ∀ id' ∈ s.instruments, ∃ c, s.quotes id' = .ok c := by
    intro id' hid'
    rw [hid, List.mem_singleton] at hid'
    exact ⟨_, hid' ▸ hquotes⟩
  have hone : ∀ id' ∈ s.instruments, ∀ c, s.quotes id' = .ok c → c = flatQuotes [1, 2, 2] := by
    intro id' hid' c hc
    rw [hid, List.mem_singleton] at hid'
    rw [hid', hquotes] at hc
    exact (Except.ok.inj hc).symm
  have hcontract : SessionContract s := by
    refine ⟨fun id' hid' c hc => ?_, fun id' hid' c hc => ?_, fun id' hid' c hc => ?_, ?_, fun t => ?_⟩
    · rw [hone id' hid' c hc]
      decide
    · rw [hone id' hid' c hc]
      decide
    · rw [hone id' hid' c hc]
      constructor <;> rfl
    · rw [htimeline]
      decide
    · have hmem : (∃ id' ∈ s.instruments, ∃ c, s.quotes id' = .ok c ∧ t ∈ c.ts.map (·.toInt)) ↔
          t ∈ (flatQuotes [1, 2, 2]).ts.map (·.toInt) := by
        constructor
        · rintro ⟨id', hid', c, hc, ht⟩
          exact hone id' hid' c hc ▸ ht
        · intro ht
          exact ⟨id, hid ▸ List.mem_singleton.mpr rfl, _, hquotes, ht⟩
      rw [hmem, htimeline]
      have hleft : ([1, 2] : List Int64).map (·.toInt) = [1, 2] := by decide
      have hright : (flatQuotes [1, 2, 2]).ts.map (·.toInt) = [1, 2, 2] := by decide
      rw [hleft, hright]
      simp
  obtain ⟨m, hm, hiff⟩ := accepted_file_honours_iff hopen hall
  exact ⟨file, s, r, m, hopen, hm, hcontract, hiff.mp hcontract⟩

/-- **Times out of order.** A file is accepted, and its one instrument decodes, with times that go back in the middle
    and a timeline that has one of them. -/
theorem backwards_times_are_accepted : ∃ file s r,
    VfdaySession.openFile "2025-07-01.vfday" file {} = (.ok s, r) ∧
      (∀ id ∈ s.instruments, ∃ c, s.quotes id = .ok c) ∧ ¬ SessionContract s := by
  have hfits : (timedItem [1, 3, 2, 4]).Fits :=
    ⟨by constructor <;> rfl, by decide,
      lt_of_le_of_lt (length_encodeColumns_le (c := flatQuotes [1, 3, 2, 4]) (by constructor <;> rfl)) (by decide),
      by decide⟩
  obtain ⟨file, s, r, id, hopen, hid, hquotes, _⟩ :=
    Item.opens hfits (by decide) (show ascending [1] = true by decide) (by decide) "2025-07-01.vfday"
  refine ⟨file, s, r, hopen, fun id' hid' => ?_, fun hcontract => ?_⟩
  · rw [hid, List.mem_singleton] at hid'
    exact ⟨_, hid' ▸ hquotes⟩
  · have hascending := hcontract.ascending id (hid ▸ List.mem_singleton.mpr rfl) _ hquotes
    exact absurd hascending (by decide)

end Volforge
