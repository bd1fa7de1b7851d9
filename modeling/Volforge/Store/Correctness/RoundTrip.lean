import Volforge.Core.Correctness.Events
import Volforge.Core.Correctness.Fills
import Volforge.Store.Correctness.Capacity

/-!
# `Store.Correctness.RoundTrip` — a day file opens as the session it was written from

## Contents
- **Timeline.** The writer stores the distinct times of the observations, ascending.
- **Sessions that fit.** `Registered`, `FitsFormat`.
- **Round trip.** `Reopened`, and `day_file_round_trip`.
-/

namespace Volforge

open IdTable

/-! ## Timeline -/

theorem ascending_iff (ts : List Int64) : ascending ts = true ↔ (ts.map (·.toInt)).Pairwise (· < ·) := by
  induction ts with
  | nil => simp [ascending]
  | cons a ts ih =>
      cases ts with
      | nil => simp [ascending]
      | cons b ts =>
          rw [ascending, Bool.and_eq_true, decide_eq_true_eq, ih, Int64.lt_iff_toInt_lt, List.map_cons (l := b :: ts)]
          constructor
          · rintro ⟨hab, hsorted⟩
            refine List.pairwise_cons.mpr ⟨fun c hc => ?_, hsorted⟩
            rcases List.mem_cons.mp hc with rfl | hc
            · exact hab
            · exact lt_trans hab ((List.pairwise_cons.mp hsorted).1 c hc)
          · intro h
            obtain ⟨hall, hsorted⟩ := List.pairwise_cons.mp h
            exact ⟨hall _ (List.mem_cons_self ..), hsorted⟩

namespace SessionData

/-- Started from a time that does not occur, the loop of the writer is that of the replay. -/
theorem distinctTimes_eq (last : Timestamp) (es : List Event) : distinctTimes (some last) es = dropRepeats last es := by
  induction es generalizing last with
  | nil => rfl
  | cons e es ih =>
      unfold distinctTimes dropRepeats
      by_cases h : e.ts = last
      · rw [if_pos (by rw [h]), if_pos h, ih]
      · rw [if_neg (fun heq => h (Option.some.inj heq).symm), if_neg h, ih]

theorem distinctTimes_none {before : Timestamp} {es : List Event} (h : ∀ e ∈ es, before < e.ts) :
    distinctTimes none es = dropRepeats before es := by
  cases es with
  | nil => rfl
  | cons e es =>
      have hlt := h e (List.mem_cons_self ..)
      unfold distinctTimes dropRepeats
      rw [if_neg (by simp), if_neg (ne_of_gt hlt), distinctTimes_eq]

/-- **The stored timeline** is the ascending list of the distinct times. -/
theorem timelineOf_spec {s : SessionData} (hc : s.Contract) : s.IsTimeline (timelineOf s) := by
  unfold timelineOf
  by_cases hempty : s.timeline.isEmpty = true
  · rw [if_pos hempty]
    obtain ⟨hasc, hmem⟩ := events_spec hc
    have hbefore : ∀ e ∈ s.events, kNoTime - 1 < e.ts := by
      intro e he
      obtain ⟨_, _, hts⟩ := (hmem e).mp he
      have hle := kNoTime_le_time (s.quotes e.instrument) e.row
      rw [hts]
      lia
    rw [distinctTimes_none hbefore]
    obtain ⟨hpair, hdrop⟩ := dropRepeats_spec hasc (fun e he => le_of_lt (hbefore e he))
    refine ⟨hpair, fun t => (hdrop t).trans ?_⟩
    constructor
    · rintro ⟨_, e, he, rfl⟩
      obtain ⟨hid, hrow, hts⟩ := (hmem e).mp he
      exact ⟨e.instrument, hid, e.row, hrow, hts.symm⟩
    · rintro ⟨id, hid, row, hrow, rfl⟩
      have he := (hmem ⟨(s.quotes id).time row, id, row⟩).mpr ⟨hid, hrow, rfl⟩
      exact ⟨hbefore _ he, _, he, rfl⟩
  · rw [if_neg hempty]
    exact hc.timeline.resolve_left (by simpa using hempty)

/-- The times of observations are 64-bit values. -/
theorem IsTimeline.toInt_ofInt {s : SessionData} {ts : List Timestamp} (h : s.IsTimeline ts) :
    (ts.map Int64.ofInt).map (·.toInt) = ts := by
  rw [List.map_map]
  refine (List.map_congr_left (fun t ht => ?_)).trans (List.map_id ts)
  obtain ⟨id, _, row, _, rfl⟩ := (h.mem_iff t).mp ht
  exact congrArg Int64.toInt (Int64.ofInt_toInt _)

/-! ## Sessions that fit -/

theorem not_last_lt_first {c : QuoteColumns} (h : c.Ascending) : ¬ c.ts.getLastD 0 < c.ts.headD 0 := by
  rw [Int64.lt_iff_toInt_lt]
  unfold QuoteColumns.Ascending at h
  cases hts : c.ts with
  | nil => exact lt_irrefl _
  | cons x xs =>
      rw [hts] at h
      rw [List.getLastD_cons, List.headD_cons, not_lt]
      rcases List.mem_cons.mp (List.getLastD_mem_cons (l := xs) (a := x)) with hfirst | hmem
      · rw [hfirst]
      · exact (List.pairwise_cons.mp h).1 _ hmem

theorem length_payload_le {items : List Item} {n : Nat} (h : ∀ i ∈ items, i.blob.length ≤ n) :
    (Item.payload items).length ≤ items.length * n := by
  induction items with
  | nil => simp [Item.payload]
  | cons i items ih =>
      have hi := h i (List.mem_cons_self ..)
      have hrest := ih (fun j hj => h j (List.mem_cons_of_mem _ hj))
      rw [Item.payload, List.flatMap_cons, List.length_append, List.length_cons, Nat.succ_mul, Nat.add_comm]
      exact Nat.add_le_add hrest hi

/-- Instruments without rows add none. -/
theorem sum_printing (s : SessionData) (ids : List InstrumentId) :
    ((ids.filter (fun id => !(s.quotes id).isEmpty)).map (fun id => (s.quotes id).size)).sum =
      (ids.map (fun id => (s.quotes id).size)).sum := by
  induction ids with
  | nil => rfl
  | cons id ids ih =>
      by_cases hempty : (s.quotes id).isEmpty = true
      · have hsize : (s.quotes id).size = 0 := List.length_eq_zero_iff.mpr (List.isEmpty_iff.mp hempty)
        rw [List.filter_cons_of_neg (by simp [hempty]), ih, List.map_cons, List.sum_cons, hsize, Nat.zero_add]
      · rw [List.filter_cons_of_pos (by simp [hempty]), List.map_cons, List.sum_cons, ih, List.map_cons, List.sum_cons]

/-- Every instrument is registered, under a name, and no contract is listed twice. -/
structure Registered (s : SessionData) : Prop where
  resolves : ∀ id ∈ s.instruments, ∃ i, s.ItemOf id i
  distinct : ∀ id ∈ s.instruments, ∀ id' ∈ s.instruments, ∀ i i', s.ItemOf id i → s.ItemOf id' i' →
    i.identity = i'.identity → id = id'

/-- The blobs, and the table, the names and the directory the writer collects, fit the 32-bit fields. -/
structure FitsFormat (s : SessionData) : Prop where
  blobs : ∀ id ∈ s.instruments, (encodeColumns (s.quotes id)).length < 2 ^ 32
  table : ∀ w, s.instruments.foldlM (Writer.step s) {} = .ok w → w.table.length * TableEntry.size < 2 ^ 32
  strings : ∀ w, s.instruments.foldlM (Writer.step s) {} = .ok w → w.strings.length < 2 ^ 32
  directory : ∀ w, s.instruments.foldlM (Writer.step s) {} = .ok w → w.directory.length * DirEntry.size < 2 ^ 32

theorem ItemOf.unique {s : SessionData} {id : InstrumentId} {i j : Item} (hi : s.ItemOf id i) (hj : s.ItemOf id j) :
    i = j := by
  obtain ⟨spec, name, columns⟩ := i
  obtain ⟨spec', name', columns'⟩ := j
  have hspec : spec = spec' := Except.ok.inj (hi.spec.symm.trans hj.spec)
  subst hspec
  have hname : name = name' := Except.ok.inj (hi.name.symm.trans hj.name)
  have hcolumns : columns = columns' := hi.columns.trans hj.columns.symm
  rw [hname, hcolumns]

/-- Bounds on the rows, the names and the instruments under which a session fits. -/
theorem fitsFormat_of_le {s : SessionData} (rows letters : Nat) (hreg : s.Registered)
    (haligned : ∀ id, (s.quotes id).Aligned) (hrows : ∀ id ∈ s.instruments, (s.quotes id).size ≤ rows)
    (hletters : ∀ id ∈ s.instruments, ∀ i, s.ItemOf id i → i.name.length ≤ letters)
    (hblobs : 8 * (30 + 19 * rows) < 2 ^ 32) (hstrings : s.instruments.length * letters < 2 ^ 32)
    (hcount : s.instruments.length * DirEntry.size < 2 ^ 32) : s.FitsFormat := by
  have hsome : ∀ id ∈ s.printing, ∃ i, s.ItemOf id i := fun id hid => hreg.resolves id (List.mem_filter.mp hid).1
  obtain ⟨items, hall⟩ := exists_related hsome
  have hlen : items.length ≤ s.instruments.length := by
    rw [← hall.length_eq]
    exact List.length_filter_le ..
  have hnames : (items.map (·.name.length)).sum ≤ s.instruments.length * letters := by
    have hsum := List.sum_le_card_nsmul (items.map (·.name.length)) letters ?_
    · rw [List.length_map, smul_eq_mul] at hsum
      exact le_trans hsum (Nat.mul_le_mul_right _ hlen)
    · intro n hn
      obtain ⟨i, hi, rfl⟩ := List.mem_map.mp hn
      obtain ⟨id, hid, hof⟩ := exists_of_mem_right hall hi
      exact hletters id (List.mem_filter.mp hid).1 i hof
  have hloop := Writer.foldlM_step hall {}
  have hshort := Writer.length_strings_le items {}
  rw [show ({} : Writer).strings.length = 0 from rfl, Nat.zero_add] at hshort
  have hfits := lt_of_le_of_lt (le_trans hshort hnames) hstrings
  have hholds := Writer.addItems_holds Writer.holds_empty items hfits
  rw [List.nil_append] at hholds
  have hunique : ∀ w, s.instruments.foldlM (Writer.step s) {} = .ok w →
      items.foldl (fun w i => w.addInstrument i.spec i.name i.columns) {} = w := by
    intro w hw
    rw [hloop] at hw
    exact Except.ok.inj hw
  have hcount' : items.length * 40 < 2 ^ 32 := lt_of_le_of_lt (Nat.mul_le_mul_right _ hlen) hcount
  refine ⟨fun id hid => ?_, fun w hw => ?_, fun w hw => ?_, fun w hw => ?_⟩
  · have hle := length_encodeColumns_le (haligned id)
    have hsize := hrows id hid
    omega
  · rw [← hunique w hw, hholds.table.length_eq]
    unfold TableEntry.size
    omega
  · rw [← hunique w hw]
    exact hfits
  · rw [← hunique w hw, hholds.directory, Item.length_directoryFrom]
    exact hcount'

/-- The session is written, from buffers that fit, item by item. -/
structure Written (s : SessionData) (w : Writer) (items : List Item) : Prop where
  file : writeVfday s = .ok (w.image s (timelineOf s)).bytes
  holds : w.Holds items
  taken : List.Forall₂ s.ItemOf s.printing items
  fits : w.Fits (timelineOf s)
  itemFits : ∀ i ∈ items, i.Fits
  ascending : ascending ((timelineOf s).map Int64.ofInt) = true
  distinct : (items.map Item.identity).Nodup
  rows : s.totalObservations = (items.map (·.columns.size)).sum

/-- A session that fits is written. -/
theorem exists_written {s : SessionData} (hc : s.Contract) (hreg : s.Registered) (hfits : s.FitsFormat)
    (htimeline : (timelineOf s).length < 2 ^ 32) : ∃ w items, s.Written w items := by
  have hsome : ∀ id ∈ s.printing, ∃ i, s.ItemOf id i := fun id hid => hreg.resolves id (List.mem_filter.mp hid).1
  obtain ⟨items, hall⟩ := exists_related hsome
  have hloop := Writer.foldlM_step hall {}
  have hholds := Writer.addItems_holds Writer.holds_empty items (hfits.strings _ hloop)
  rw [List.nil_append] at hholds
  generalize items.foldl (fun w i => w.addInstrument i.spec i.name i.columns) ({} : Writer) = w at hloop hholds
  -- the columns of an item are those of one of the instruments
  have hitem : ∀ i ∈ items, ∃ id ∈ s.instruments, i.columns = s.quotes id := by
    intro i hi
    obtain ⟨id, hid, hof⟩ := exists_of_mem_right hall hi
    exact ⟨id, (List.mem_filter.mp hid).1, hof.columns⟩
  have hitems : ∀ i ∈ items, i.Fits := by
    intro i hi
    obtain ⟨id, hid, hcolumns⟩ := hitem i hi
    refine ⟨hcolumns ▸ hc.aligned id, hcolumns ▸ hc.located id, ?_, ?_⟩
    · rw [Item.blob, hcolumns]
      exact hfits.blobs id hid
    · rw [hcolumns]
      exact not_last_lt_first (hc.ascending id)
  have hwfits : w.Fits (timelineOf s) := by
    refine ⟨hfits.table w hloop, hfits.strings w hloop, htimeline, hfits.directory w hloop, ?_⟩
    have hlen : w.table.length = items.length := hholds.table.length_eq
    have htable : w.table.length * 28 < 2 ^ 32 := hfits.table w hloop
    have hpayload := length_payload_le (fun i hi => le_of_lt (hitems i hi).blob)
    rw [hholds.blob]
    omega
  have hline := timelineOf_spec hc
  refine ⟨w, items, hwfits.writeVfday hloop, hholds, hall, hwfits, hitems, ?_, ?_, ?_⟩
  · rw [ascending_iff, hline.toInt_ofInt]
    exact hline.ascending
  · have hdistinct := nodup_iff (f := Item.identity) (with_mem hall) ?_
    · exact hdistinct.mp (hc.nodup.filter _)
    · rintro id i id' i' ⟨⟨hid, _⟩, hi⟩ ⟨⟨hid', _⟩, hi'⟩
      constructor
      · rintro rfl
        rw [hi.unique hi']
      · exact hreg.distinct id (List.mem_filter.mp hid).1 id' (List.mem_filter.mp hid').1 i i' hi hi'
  · rw [hc.total, ← sum_printing, ← map_eq_map hall (f := fun id => (s.quotes id).size)
      (fun id i hi => by rw [hi.columns])]
    rfl

namespace Written

variable {s : SessionData} {w : Writer} {items : List Item}

theorem described (h : s.Written w items) : (w.image s (timelineOf s)).Described := h.fits.described h.ascending

/-- **The file opens**, into any registry. -/
theorem opens (h : s.Written w items) (path : String) {r : InstrumentRegistry} (hr : r.Sound) :
    VfdaySession.openFile path (w.image s (timelineOf s)).bytes r = (.ok (w.opened s (timelineOf s) path r),
      (VfdaySession.registerMany (w.image s (timelineOf s)).metadata w.table r).2) :=
  h.holds.opens h.fits h.itemFits h.ascending h.distinct h.rows path hr

end Written

end SessionData

/-! ## Round trip -/

/-- An id of one registry and an id of another stand for the same contract. -/
def SameContract (r : InstrumentRegistry) (id : InstrumentId) (r' : InstrumentRegistry) (id' : InstrumentId) : Prop :=
  ∃ spec name u, r.spec id = .ok spec ∧ r.underlyingName spec.underlying = .ok name ∧
    r'.spec id' = .ok { spec with id := id', underlying := u } ∧ r'.underlyingName u = .ok name

/-- The opened session has what the written one had. -/
structure Reopened (session : SessionData) (s : VfdaySession) (r : InstrumentRegistry) : Prop where
  date : s.date = session.date
  contracts : List.Forall₂ (fun id id' => SameContract session.registry id r id' ∧
    s.quotes id' = .ok (session.quotes id) ∧
    ∀ t, s.printedBy id' t = SessionData.lookPrintedBy session.quotes id t) session.printing s.instruments
  others : ∀ id, id ∉ s.instruments → s.quotes id = .ok {} ∧ ∀ t, s.printedBy id t = false
  total : s.totalRows.toNat = session.totalObservations
  timeline : session.IsTimeline s.timeline

/-- What an opened session answers for a contract that is not listed. -/
theorem VfdaySession.unlisted {s : VfdaySession} {id : InstrumentId} (h : s.entries.lookup id = none) :
    s.quotes id = .ok {} ∧ ∀ t, s.printedBy id t = false := by
  unfold quotes materialise printedBy
  rw [h]
  exact ⟨rfl, fun _ => rfl⟩

/-- **Day-file round trip.** A session that fits the format and has fewer than `2 ^ 32` distinct times is
    written, and opens into an empty registry as the same session. -/
theorem day_file_round_trip {session : SessionData} (hc : session.Contract) (hreg : session.Registered)
    (hfits : session.FitsFormat) (htimeline : (timelineOf session).length < 2 ^ 32) (path : String) :
    ∃ file s r, writeVfday session = .ok file ∧ VfdaySession.openFile path file {} = (.ok s, r) ∧
      Reopened session s r := by
  obtain ⟨w, items, hw⟩ := SessionData.exists_written hc hreg hfits htimeline
  have hopen := hw.opens path InstrumentRegistry.sound_empty
  obtain ⟨hwrite, hholds, hall, hwfits, hitems, _, hdistinct, hrows⟩ := hw
  have hnodup := hholds.nodup_ids hdistinct session (timelineOf session) InstrumentRegistry.sound_empty
  have hline := SessionData.timelineOf_spec hc
  refine ⟨_, _, _, hwrite, hopen, rfl, ?_, ?_, ?_, ?_⟩
  · have hanswers := hholds.answers hwfits hitems path hnodup
    have hresolved := VfdaySession.registerMany_resolved InstrumentRegistry.sound_empty
      (w.image session (timelineOf session)).metadata w.table hnodup
    -- instrument, item, table entry and id, side by side
    refine (related_comp hall (related_and hanswers (related_comp hresolved hholds.table)).flip).imp ?_
    rintro id id' ⟨i, hi, ⟨hquotes, hprinted⟩, t, ⟨u, s, hu, hs, _, hcase⟩, ht⟩
    have hspec : s = { i.spec with id := id', underlying := u } := by
      rcases hcase with ⟨n, _, hget⟩ | hspec
      · cases hget
      · rw [hspec, ht.specOf]
    rw [ht.nameOf] at hu
    rw [hspec] at hs
    refine ⟨⟨i.spec, i.name, u, hi.spec, hi.name, InstrumentRegistry.spec_eq_ok.mpr hs,
      InstrumentRegistry.underlyingName_eq_ok.mpr hu⟩, ?_, ?_⟩
    · rw [← hi.columns]
      exact hquotes
    · intro t
      rw [SessionData.lookPrintedBy_eq, ← hi.columns]
      exact hprinted t
  · intro id hid
    have hlen : (VfdaySession.registerMany (w.image session (timelineOf session)).metadata w.table {}).1.length =
        w.directory.length := by
      rw [VfdaySession.length_registerMany, hholds.table.length_eq, hholds.directory, Item.length_directoryFrom]
    refine VfdaySession.unlisted (Option.not_isSome_iff_eq_none.mp (fun hsome => hid ?_))
    have hkey := (VfdaySession.lookup_isSome_iff _ id).mp hsome
    rw [Writer.opened, VfdaySession.keys_extend hlen] at hkey
    exact hkey
  · have hlen : w.table.length = items.length := hholds.table.length_eq
    have htable : w.table.length * 28 < 2 ^ 32 := hwfits.table
    have hle : session.totalObservations ≤ items.length * 2 ^ 32 := by
      rw [hrows]
      have hsum := List.sum_le_card_nsmul (items.map (·.columns.size)) (2 ^ 32) ?_
      · rw [List.length_map, smul_eq_mul] at hsum
        exact hsum
      · intro n hn
        obtain ⟨i, hi, rfl⟩ := List.mem_map.mp hn
        exact le_of_lt (hitems i hi).rows
    exact UInt64.toNat_ofNat_of_lt' (lt_of_le_of_lt hle (by unfold UInt64.size; omega))
  · show session.IsTimeline (((timelineOf session).map Int64.ofInt).map (·.toInt))
    rw [hline.toInt_ofInt]
    exact hline

/-- The one contract of a flat session. -/
theorem flatSession_itemOf (date : Date) (times : List Int64) :
    (flatSession date times).ItemOf 0 ⟨{ id := 0, underlying := 0 }, [78], flatQuotes times⟩ := ⟨rfl, rfl, rfl⟩

theorem flatSession_registered (date : Date) (times : List Int64) : (flatSession date times).Registered where
  resolves := by
    intro id hid
    rw [List.mem_singleton.mp hid]
    exact ⟨_, flatSession_itemOf date times⟩
  distinct := by
    intro id hid id' hid' i i' _ _ _
    rw [List.mem_singleton.mp hid, List.mem_singleton.mp hid']

theorem flatSession_fitsFormat (date : Date) {times : List Int64} (hlen : 8 * (30 + 19 * times.length) < 2 ^ 32) :
    (flatSession date times).FitsFormat := by
  refine SessionData.fitsFormat_of_le times.length 1 (flatSession_registered date times) ?_ ?_ ?_ hlen
    (show 1 * 1 < 2 ^ 32 by decide) (show 1 * 40 < 2 ^ 32 by decide)
  · intro id
    show (if id = 0 then flatQuotes times else {}).Aligned
    split_ifs
    · constructor <;> simp [flatQuotes]
    · constructor <;> rfl
  · intro id hid
    rw [List.mem_singleton.mp hid]
    exact le_rfl
  · intro id hid i hi
    rw [List.mem_singleton.mp hid] at hi
    rw [hi.unique (flatSession_itemOf date times)]
    exact le_rfl

/-- A flat session is written as its one item. -/
theorem flatSession_written (date : Date) {t : Int64} {times : List Int64}
    (hasc : (t :: times).Pairwise (fun a b => a.toInt ≤ b.toInt)) (hlen : 8 * (30 + 19 * (t :: times).length) < 2 ^ 32)
    (htimeline : (timelineOf (flatSession date (t :: times))).length < 2 ^ 32) :
    ∃ w, (flatSession date (t :: times)).Written w [⟨{ id := 0, underlying := 0 }, [78], flatQuotes (t :: times)⟩] := by
  obtain ⟨w, items, hw⟩ := SessionData.exists_written (flatSession_contract date hasc (by omega))
    (flatSession_registered date (t :: times)) (flatSession_fitsFormat date hlen) htimeline
  have hitems : items = [⟨{ id := 0, underlying := 0 }, [78], flatQuotes (t :: times)⟩] := by
    have htaken : List.Forall₂ (flatSession date (t :: times)).ItemOf [0] items := hw.taken
    cases htaken with
    | cons hi hnil =>
        cases hnil
        rw [hi.unique (flatSession_itemOf date (t :: times))]
  subst hitems
  exact ⟨w, hw⟩

/-- Two rows at one time, and one later. -/
theorem day_file_round_trip_flat : ∃ file s r,
    writeVfday (flatSession ⟨20250701⟩ [1, 1, 2]) = .ok file ∧
      VfdaySession.openFile "2025-07-01.vfday" file {} = (.ok s, r) ∧
      Reopened (flatSession ⟨20250701⟩ [1, 1, 2]) s r :=
  day_file_round_trip (flatSession_contract _ (by decide) (by decide)) (flatSession_registered _ _)
    (flatSession_fitsFormat _ (by decide)) (by decide +kernel) _

/-! ### More times than the header can count -/

/-- The times of the `k`-th of several instruments that take turns of `m` rows. -/
def turn (m k : Nat) : List Int64 := (List.range m).map (fun j => Int64.ofNat (k * m + j))

def turnSpec (k : Nat) : InstrumentSpec :=
  { id := k, underlying := 0, kind := .Option, expiry := ⟨20250703⟩, strike := Int32.ofNat k }

/-- `n` strikes that print one after the other, `m` times each. -/
def turns (n m : Nat) : SessionData where
  date := ⟨20250701⟩
  registry :=
    { specs := (List.range n).map turnSpec
      byKey := (List.range n).map (fun k => (InstrumentRegistry.keyOf (turnSpec k), (k : Int)))
      underlyings := [[78]]
      underlyingIds := [([78], 0)] }
  instruments := (List.range n).map (fun k : Nat => (k : Int))
  quotes id := if 0 ≤ id ∧ id < n then flatQuotes (turn m id.toNat) else {}
  totalObservations := n * m
  eventOrder := []
  timeline := []
  printedBy := SessionData.lookPrintedBy (fun id => if 0 ≤ id ∧ id < n then flatQuotes (turn m id.toNat) else {})

section Turns

variable {n m : Nat}

theorem mem_turns {id : InstrumentId} : id ∈ (turns n m).instruments ↔ ∃ k < n, id = k := by
  unfold turns
  rw [List.mem_map]
  constructor
  · rintro ⟨k, hk, rfl⟩
    exact ⟨k, List.mem_range.mp hk, rfl⟩
  · rintro ⟨k, hk, rfl⟩
    exact ⟨k, List.mem_range.mpr hk, rfl⟩

theorem turns_quotes {k : Nat} (hk : k < n) : (turns n m).quotes k = flatQuotes (turn m k) := by
  show (if 0 ≤ (k : Int) ∧ (k : Int) < n then flatQuotes (turn m (k : Int).toNat) else {}) = _
  rw [if_pos (by omega), Int.toNat_natCast]

theorem turns_quotes_cases (P : QuoteColumns → Prop) (h : ∀ k < n, P (flatQuotes (turn m k))) (h₀ : P {})
    (id : InstrumentId) : P ((turns n m).quotes id) := by
  by_cases hid : 0 ≤ id ∧ id < n
  · obtain ⟨k, rfl⟩ := Int.eq_ofNat_of_zero_le hid.1
    have hk : k < n := Int.ofNat_lt.mp hid.2
    rw [turns_quotes hk]
    exact h k hk
  · show P (if 0 ≤ id ∧ id < n then flatQuotes (turn m id.toNat) else {})
    rw [if_neg hid]
    exact h₀

theorem length_turn (k : Nat) : (turn m k).length = m := by
  rw [turn, List.length_map, List.length_range]

/-- The times are the numbers themselves. -/
theorem turn_toInt (hnm : n * m < 2 ^ 63) {k j : Nat} (hk : k < n) (hj : j < m) :
    (Int64.ofNat (k * m + j)).toInt = (k * m + j : Nat) := by
  have hlt : k * m + j < n * m := by
    calc k * m + j < k * m + m := Nat.add_lt_add_left hj _
      _ = (k + 1) * m := (Nat.succ_mul k m).symm
      _ ≤ n * m := Nat.mul_le_mul_right _ hk
  exact Int64.toInt_ofNat_of_lt (lt_trans hlt hnm)

theorem turns_contract (hm : m < 2 ^ 32) (hnm : n * m < 2 ^ 63) : (turns n m).Contract where
  nodup := List.Nodup.map (fun a b h => Int.ofNat.inj h) List.nodup_range
  listed := by
    intro id hid
    have hout : ¬ (0 ≤ id ∧ id < n) := by
      rintro ⟨hpos, hlt⟩
      obtain ⟨k, rfl⟩ := Int.eq_ofNat_of_zero_le hpos
      exact hid (mem_turns.mpr ⟨k, Int.ofNat_lt.mp hlt, rfl⟩)
    show (if 0 ≤ id ∧ id < n then flatQuotes (turn m id.toNat) else {}).ts = []
    rw [if_neg hout]
  aligned := turns_quotes_cases _ (fun k _ => by constructor <;> simp [flatQuotes]) (by constructor <;> rfl)
  ascending := by
    refine turns_quotes_cases _ (fun k hk => ?_) List.Pairwise.nil
    refine List.pairwise_map.mpr (List.Pairwise.imp_of_mem ?_ List.pairwise_lt_range)
    intro a b ha hb hab
    rw [turn_toInt hnm hk (List.mem_range.mp ha), turn_toInt hnm hk (List.mem_range.mp hb)]
    omega
  located := turns_quotes_cases (fun c => c.size < 2 ^ 32) (fun k _ => by
    show (turn m k).length < 2 ^ 32
    rw [length_turn]
    exact hm) (by decide)
  total := by
    have hsizes : (turns n m).instruments.map (fun id => ((turns n m).quotes id).size) = List.replicate n m := by
      refine List.eq_replicate_iff.mpr ⟨by simp [turns], fun size hsize => ?_⟩
      obtain ⟨id, hid, rfl⟩ := List.mem_map.mp hsize
      obtain ⟨k, hk, rfl⟩ := mem_turns.mp hid
      rw [turns_quotes hk]
      exact length_turn k
    rw [hsizes, List.sum_replicate]
    rfl
  eventOrder := .inl rfl
  timeline := .inl rfl
  printedBy := fun _ _ => rfl

theorem turns_itemOf {k : Nat} (hk : k < n) :
    (turns n m).ItemOf k ⟨turnSpec k, [78], flatQuotes (turn m k)⟩ where
  spec := InstrumentRegistry.spec_eq_ok.mpr ⟨k, rfl, by
    show ((List.range n).map turnSpec)[k]? = _
    rw [List.getElem?_map, List.getElem?_range hk]
    rfl⟩
  name := rfl
  columns := (turns_quotes hk).symm

theorem turns_registered (hn : n < 2 ^ 31) : (turns n m).Registered where
  resolves := by
    intro id hid
    obtain ⟨k, hk, rfl⟩ := mem_turns.mp hid
    exact ⟨_, turns_itemOf hk⟩
  distinct := by
    intro id hid id' hid' i i' hi hi' heq
    obtain ⟨k, hk, rfl⟩ := mem_turns.mp hid
    obtain ⟨k', hk', rfl⟩ := mem_turns.mp hid'
    rw [hi.unique (turns_itemOf hk), hi'.unique (turns_itemOf hk')] at heq
    -- the strikes tell them apart
    have hstrike : Int32.ofNat k = Int32.ofNat k' := congrArg Identity.strike heq
    have htoInt := congrArg Int32.toInt hstrike
    rw [Int32.toInt_ofNat_of_lt (lt_trans hk hn), Int32.toInt_ofNat_of_lt (lt_trans hk' hn)] at htoInt
    exact htoInt

theorem turns_fitsFormat (hn : n * 40 < 2 ^ 32) (hm : 8 * (30 + 19 * m) < 2 ^ 32) (hnm : n * m < 2 ^ 63) :
    (turns n m).FitsFormat := by
  have hlen : (turns n m).instruments.length = n := by simp [turns]
  have hc : (turns n m).Contract := turns_contract (by omega) hnm
  refine SessionData.fitsFormat_of_le m 1 (turns_registered (by omega)) hc.aligned ?_ ?_ hm (by rw [hlen]; omega)
    (by rw [hlen]; exact hn)
  · intro id hid
    obtain ⟨k, hk, rfl⟩ := mem_turns.mp hid
    rw [turns_quotes hk]
    exact (length_turn k).le
  · intro id hid i hi
    obtain ⟨k, hk, rfl⟩ := mem_turns.mp hid
    rw [hi.unique (turns_itemOf hk)]
    exact le_rfl

/-- Every number is the time of a row. -/
theorem turns_printsAt (hnm : n * m < 2 ^ 63) {t : Nat} (ht : t < n * m) : (turns n m).PrintsAt t := by
  have hm : 0 < m := Nat.pos_of_ne_zero (fun h => by rw [h] at ht; omega)
  have hk : t / m < n := Nat.div_lt_of_lt_mul (Nat.mul_comm n m ▸ ht)
  have hj : t % m < m := Nat.mod_lt _ hm
  refine ⟨(t / m : Nat), mem_turns.mpr ⟨_, hk, rfl⟩, t % m, ?_, ?_⟩
  · rw [turns_quotes hk]
    exact lt_of_lt_of_le hj (length_turn _).ge
  · rw [turns_quotes hk]
    have hget : (turn m (t / m))[t % m]? = some (Int64.ofNat (t / m * m + t % m)) := by
      rw [turn, List.getElem?_map, List.getElem?_range hj]
      rfl
    show ((turn m (t / m)).getD (t % m) 0).toInt = t
    rw [List.getD_eq_getElem?_getD, hget, Option.getD_some, turn_toInt hnm hk hj, Nat.div_add_mod']

/-- A timeline of theirs has a time for every row. -/
theorem turns_timeline_length (hnm : n * m < 2 ^ 63) {ts : List Timestamp} (h : (turns n m).IsTimeline ts) :
    n * m ≤ ts.length := by
  have hsub : (List.range (n * m)).map (fun t : Nat => (t : Int)) ⊆ ts := by
    intro t ht
    obtain ⟨k, hk, rfl⟩ := List.mem_map.mp ht
    exact (h.mem_iff _).mpr (turns_printsAt hnm (List.mem_range.mp hk))
  have hnodup : ((List.range (n * m)).map (fun t : Nat => (t : Int))).Nodup :=
    List.Nodup.map (fun a b h => Int.ofNat.inj h) List.nodup_range
  have hle := (List.subperm_of_subset hnodup hsub).length_le
  rw [List.length_map, List.length_range] at hle
  exact hle

end Turns

/-- A session fits every field but the count of the timeline, and does not come back. -/
theorem uncounted_times_do_not_come_back : ∃ session : SessionData,
    session.Contract ∧ session.Registered ∧ session.FitsFormat ∧
      ¬ ∃ file s r, writeVfday session = .ok file ∧ VfdaySession.openFile "2025-07-01.vfday" file {} = (.ok s, r) ∧
        Reopened session s r := by
  refine ⟨turns (2 ^ 10) (2 ^ 22), turns_contract (by decide) (by decide), turns_registered (by decide),
    turns_fitsFormat (by decide) (by decide) (by decide), ?_⟩
  rintro ⟨file, s, r, _, hopen, hback⟩
  have hlong := turns_timeline_length (by decide) hback.timeline
  have hshort := VfdaySession.timeline_lt hopen
  omega

end Volforge
