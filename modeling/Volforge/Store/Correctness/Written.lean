import Volforge.Store.Correctness.Codec
import Volforge.Store.Correctness.Image
import Volforge.Store.Correctness.Registration

/-!
# `Store.Correctness.Written` — what the writer writes, and how it opens

An `Item` is what the instrument loop takes from the session for one instrument: its contract, the name of the
underlying and its columns. `Writer.Holds` says what the buffers hold after a list of items; a file of such
buffers opens, and its columns decode to the items' own.

## Contents
- **The instrument loop.** One step lemma for `addInstrument`, and the run lemma.
- **Directory.** Every entry passes its checks.
- **Columns.** They decode.
- **Opening.** `opens`.
-/

namespace Volforge

/-- What is written of one instrument. -/
structure Item where
  spec : InstrumentSpec
  name : Bytes
  columns : QuoteColumns

namespace Item

/-- The item's blob. -/
def blob (i : Item) : Bytes := encodeColumns i.columns

/-- The blobs of items, one after the other. -/
def payload (items : List Item) : Bytes := items.flatMap blob

/-- The directory entry of the item with index `k` whose blob begins at `offset` in the payload. -/
def dirEntry (i : Item) (k offset : Nat) : DirEntry where
  tableIndex := Int32.ofNat k
  rowCount := UInt32.ofNat i.columns.size
  blobOffset := Int64.ofNat (FileHeader.size + offset)
  blobBytes := UInt32.ofNat i.blob.length
  blobCrc := crc32 (i.blob.take (UInt32.ofNat i.blob.length).toNat)
  firstTs := i.columns.ts.headD 0
  lastTs := i.columns.ts.getLastD 0

/-- The directory entries of items, from an index and an offset on. -/
def directoryFrom : Nat → Nat → List Item → List DirEntry
  | _, _, [] => []
  | k, offset, i :: is => i.dirEntry k offset :: directoryFrom (k + 1) (offset + i.blob.length) is

theorem directoryFrom_append (k offset : Nat) (is js : List Item) :
    directoryFrom k offset (is ++ js) =
      directoryFrom k offset is ++ directoryFrom (k + is.length) (offset + (payload is).length) js := by
  induction is generalizing k offset with
  | nil => rfl
  | cons i is ih =>
      rw [List.cons_append, directoryFrom, ih, directoryFrom, List.cons_append, List.length_cons]
      have hlen : (payload (i :: is)).length = i.blob.length + (payload is).length := by
        rw [payload, List.flatMap_cons, List.length_append, payload]
      rw [hlen, Nat.add_right_comm k, Nat.add_assoc k, Nat.add_assoc offset]

theorem getElem?_directoryFrom (k offset : Nat) (is : List Item) (n : Nat) :
    (directoryFrom k offset is)[n]? = (is[n]?).map (fun i => i.dirEntry (k + n) (offset + (payload (is.take n)).length)) := by
  induction is generalizing k offset n with
  | nil => rfl
  | cons i is ih =>
      cases n with
      | zero => rfl
      | succ n =>
          rw [directoryFrom, List.getElem?_cons_succ, List.getElem?_cons_succ, ih, List.take_succ_cons]
          have hlen : (payload (i :: is.take n)).length = i.blob.length + (payload (is.take n)).length := by
            rw [payload, List.flatMap_cons, List.length_append, payload]
          rw [hlen, Nat.add_right_comm k, Nat.add_assoc k, Nat.add_assoc offset]

theorem length_directoryFrom (k offset : Nat) (is : List Item) : (directoryFrom k offset is).length = is.length := by
  induction is generalizing k offset with
  | nil => rfl
  | cons i is ih => rw [directoryFrom, List.length_cons, List.length_cons, ih]

end Item

/-! ## The instrument loop -/

namespace Writer

/-- `name` is at `offset` in the string table. -/
structure Slice (strings : Bytes) (offset : Nat) (name : Bytes) : Prop where
  bound : offset + name.length ≤ strings.length
  content : (strings.drop offset).take name.length = name

theorem Slice.append {strings name : Bytes} {offset : Nat} (h : Slice strings offset name) (more : Bytes) :
    Slice (strings ++ more) offset name where
  bound := by
    rw [List.length_append]
    exact le_trans h.bound (Nat.le_add_right ..)
  content := by
    have hbound := h.bound
    rw [List.drop_append_of_le_length (by omega), List.take_append_of_le_length (by rw [List.length_drop]; omega)]
    exact h.content

theorem slice_concat (strings name : Bytes) : Slice (strings ++ name) strings.length name where
  bound := by rw [List.length_append]
  content := by rw [List.drop_left, List.take_length]

/-- The table entry of an item, over the string table. -/
structure Entered (strings : Bytes) (t : TableEntry) (i : Item) : Prop where
  length : t.underlyingLength.toNat = i.name.length
  name : Slice strings t.underlyingOffset.toNat i.name
  kind : t.kind = i.spec.kind.toByte
  right : t.right = i.spec.right.toByte
  expiry : t.expiry = i.spec.expiry.yyyymmdd
  strike : t.strikeMinor = i.spec.strike
  lotSize : t.lotSize = i.spec.lotSize
  tickSize : t.tickMinor = i.spec.tickSize

theorem Entered.append {strings : Bytes} {t : TableEntry} {i : Item} (h : Entered strings t i) (more : Bytes) :
    Entered (strings ++ more) t i :=
  { h with name := h.name.append more }

/-- What the buffers hold after items. -/
structure Holds (w : Writer) (items : List Item) : Prop where
  blob : w.blob = Item.payload items
  directory : w.directory = Item.directoryFrom 0 0 items
  table : List.Forall₂ (Entered w.strings) w.table items
  interned : ∀ name offset, w.interned.lookup name = some offset → Slice w.strings offset.toNat name

theorem holds_empty : Holds {} [] where
  blob := rfl
  directory := rfl
  table := .nil
  interned := by
    intro name offset h
    cases h

/-- The string table only grows. -/
theorem intern_strings (w : Writer) (name : Bytes) : ∃ more, (w.intern name).1.strings = w.strings ++ more := by
  unfold intern
  cases w.interned.lookup name with
  | some offset => exact ⟨[], (List.append_nil _).symm⟩
  | none => exact ⟨name, rfl⟩

/-- The offset of an interned name is where it is. -/
theorem intern_spec {w : Writer} {items : List Item} (h : w.Holds items) (name : Bytes)
    (hfits : (w.intern name).1.strings.length < 2 ^ 32) :
    (w.intern name).1.Holds items ∧ Slice (w.intern name).1.strings (w.intern name).2.toNat name := by
  cases hlookup : w.interned.lookup name with
  | some offset =>
      have hsame : w.intern name = (w, offset) := by
        unfold intern
        rw [hlookup]
      rw [hsame]
      exact ⟨h, h.interned name offset hlookup⟩
  | none =>
      have hnew : w.intern name = ({ w with
          strings := w.strings ++ name
          interned := w.interned ++ [(name, UInt32.ofNat w.strings.length)] }, UInt32.ofNat w.strings.length) := by
        unfold intern
        rw [hlookup]
      rw [hnew] at hfits ⊢
      dsimp only at hfits ⊢
      rw [List.length_append] at hfits
      have hoffset : (UInt32.ofNat w.strings.length).toNat = w.strings.length :=
        UInt32.toNat_ofNat_of_lt' (lt_of_le_of_lt (Nat.le_add_right ..) hfits)
      have hslice : Slice (w.strings ++ name) (UInt32.ofNat w.strings.length).toNat name := by
        rw [hoffset]
        exact slice_concat w.strings name
      refine ⟨⟨h.blob, h.directory, h.table.imp (fun t i ht => ht.append name), ?_⟩, hslice⟩
      intro name' offset hfound
      dsimp only at hfound ⊢
      by_cases heq : name' = name
      · subst heq
        rw [IdTable.lookup_concat_self hlookup, Option.some.injEq] at hfound
        subst hfound
        exact hslice
      · rw [IdTable.lookup_concat_ne heq] at hfound
        exact (h.interned name' offset hfound).append name

theorem addInstrument_strings (w : Writer) (i : Item) :
    (w.addInstrument i.spec i.name i.columns).strings = (w.intern i.name).1.strings := rfl

/-- The step lemma of the instrument loop. -/
theorem addInstrument_holds {w : Writer} {items : List Item} (h : w.Holds items) (i : Item)
    (hfits : (w.addInstrument i.spec i.name i.columns).strings.length < 2 ^ 32) :
    (w.addInstrument i.spec i.name i.columns).Holds (items ++ [i]) := by
  rw [addInstrument_strings] at hfits
  obtain ⟨hholds, hslice⟩ := intern_spec h i.name hfits
  unfold addInstrument
  generalize w.intern i.name = interned at *
  obtain ⟨w, offset⟩ := interned
  dsimp only at hholds hslice hfits ⊢
  have htable : w.table.length = items.length := hholds.table.length_eq
  refine ⟨?_, ?_, ?_, hholds.interned⟩
  · rw [hholds.blob, Item.payload, Item.payload, List.flatMap_append, List.flatMap_singleton]
    rfl
  · rw [hholds.directory, Item.directoryFrom_append, Nat.zero_add, Nat.zero_add, ← htable, ← hholds.blob]
    rfl
  · refine List.rel_append hholds.table (.cons ?_ .nil)
    have hname : i.name.length < 2 ^ 32 := by
      have hbound := hslice.bound
      omega
    exact ⟨UInt32.toNat_ofNat_of_lt' hname, hslice, rfl, rfl, rfl, rfl, rfl, rfl⟩

/-- The run lemma of the instrument loop. -/
theorem addItems_holds {w : Writer} {done : List Item} (h : w.Holds done) (items : List Item)
    (hfits : (items.foldl (fun w i => w.addInstrument i.spec i.name i.columns) w).strings.length < 2 ^ 32) :
    (items.foldl (fun w i => w.addInstrument i.spec i.name i.columns) w).Holds (done ++ items) := by
  induction items generalizing w done with
  | nil =>
      rw [List.append_nil]
      exact h
  | cons i items ih =>
      rw [List.foldl_cons] at hfits ⊢
      have hgrow : ∀ (items : List Item) (w : Writer), w.strings.length ≤
          (items.foldl (fun w i => w.addInstrument i.spec i.name i.columns) w).strings.length := by
        intro items
        induction items with
        | nil => exact fun w => le_rfl
        | cons i items ih =>
            intro w
            obtain ⟨more, hmore⟩ := intern_strings w i.name
            refine le_trans ?_ (ih (w.addInstrument i.spec i.name i.columns))
            rw [addInstrument_strings, hmore, List.length_append]
            exact Nat.le_add_right ..
      have hstep := addInstrument_holds h i (lt_of_le_of_lt (hgrow items _) hfits)
      rw [← List.singleton_append, ← List.append_assoc]
      exact ih hstep hfits

end Writer

/-! ## Directory -/

namespace Item

/-- An item fits the fields of its directory entry. -/
structure Fits (i : Item) : Prop where
  aligned : i.columns.Aligned
  rows : i.columns.size < 2 ^ 32
  blob : i.blob.length < 2 ^ 32
  times : ¬ i.columns.ts.getLastD 0 < i.columns.ts.headD 0

/-- The blob of the item with index `n`, within the payload. -/
theorem payload_split {items : List Item} {n : Nat} {i : Item} (h : items[n]? = some i) :
    payload items = payload (items.take n) ++ (i.blob ++ payload (items.drop (n + 1))) := by
  obtain ⟨hlt, rfl⟩ := List.getElem?_eq_some_iff.mp h
  have hitems : items = items.take n ++ (items[n] :: items.drop (n + 1)) := by
    rw [← List.drop_eq_getElem_cons hlt, List.take_append_drop]
  conv_lhs => rw [hitems]
  rw [payload, List.flatMap_append, List.flatMap_cons, payload, payload]

end Item

namespace Writer

/-- A directory entry is that of an item, whose blob lies in the payload. -/
theorem Holds.mem_directory {w : Writer} {items : List Item} (h : w.Holds items) {e : DirEntry} (he : e ∈ w.directory) :
    ∃ (n : Nat) (i : Item), items[n]? = some i ∧ e = i.dirEntry n (Item.payload (items.take n)).length := by
  obtain ⟨n, hn⟩ := List.mem_iff_getElem?.mp he
  rw [h.directory, Item.getElem?_directoryFrom, Nat.zero_add, Nat.zero_add] at hn
  obtain ⟨i, hi, rfl⟩ := Option.map_eq_some_iff.mp hn
  exact ⟨n, i, hi, rfl⟩

theorem Holds.payload_le {w : Writer} {items : List Item} (h : w.Holds items) {n : Nat} {i : Item}
    (hi : items[n]? = some i) : (Item.payload (items.take n)).length + i.blob.length ≤ w.blob.length := by
  rw [h.blob, Item.payload_split hi, List.length_append, List.length_append]
  omega

/-- No blob that is written ends past the largest offset. -/
theorem Holds.blob_end {w : Writer} {items : List Item} (h : w.Holds items) {timeline : List Timestamp}
    (hfits : w.Fits timeline) (hitems : ∀ i ∈ items, i.Fits) {e : DirEntry} (he : e ∈ w.directory) :
    e.blobOffset.toInt + e.blobBytes.toNat < 2 ^ 63 := by
  obtain ⟨n, i, hi, rfl⟩ := h.mem_directory he
  have hbound := h.payload_le hi
  have hblobs := hfits.blob
  have hstart : (Int64.ofNat (FileHeader.size + (Item.payload (items.take n)).length)).toInt =
      (FileHeader.size + (Item.payload (items.take n)).length : Nat) :=
    Int64.toInt_ofNat_of_lt (by unfold FileHeader.size; omega)
  have hbytes : (UInt32.ofNat i.blob.length).toNat = i.blob.length :=
    UInt32.toNat_ofNat_of_lt' (hitems i (List.mem_of_getElem? hi)).blob
  rw [Item.dirEntry, hstart, hbytes]
  unfold FileHeader.size
  omega

/-- **Every directory entry passes its checks**, for the table entry of its item. -/
theorem Holds.checked {w : Writer} {items : List Item} (h : w.Holds items) {session : SessionData}
    {timeline : List Timestamp} (hfits : w.Fits timeline) (hitems : ∀ i ∈ items, i.Fits) (path : String) :
    List.Forall₂ (fun e t => VfdaySession.checkEntry path (w.image session timeline).metadata e = .ok t)
      w.directory w.table := by
  have hlenD : w.directory.length = items.length := by rw [h.directory, Item.length_directoryFrom]
  have hlenT : w.table.length = items.length := h.table.length_eq
  have hcount : items.length * 40 < 2 ^ 32 := by
    have hdirectory := hfits.directory
    rw [hlenD] at hdirectory
    exact hdirectory
  have htableOffset : (w.image session timeline).metadata.header.tableOffset.toInt =
      (FileHeader.size + w.blob.length : Nat) := by
    have hblob := hfits.blob
    exact Int64.toInt_ofNat_of_lt (by unfold FileHeader.size; omega)
  refine List.forall₂_iff_get.mpr ⟨hlenD.trans hlenT.symm, fun n hn hn' => ?_⟩
  rw [List.get_eq_getElem, List.get_eq_getElem]
  have hni : n < items.length := hlenT ▸ hn'
  have hitem : items[n]? = some items[n] := List.getElem?_eq_getElem hni
  have hentry : w.directory[n] = items[n].dirEntry n (Item.payload (items.take n)).length := by
    have hget := Item.getElem?_directoryFrom 0 0 items n
    rw [← h.directory, hitem, List.getElem?_eq_getElem hn, Option.map_some, Option.some.injEq, Nat.zero_add,
      Nat.zero_add] at hget
    exact hget
  have hentered : Entered w.strings w.table[n] items[n] := (List.forall₂_iff_get.mp h.table).2 n hn' hni
  obtain ⟨haligned, hrows, hblob, htimes⟩ := hitems items[n] (List.getElem_mem hni)
  have hbound := h.payload_le hitem
  have hblobs := hfits.blob
  have hindex : (Int32.ofNat n).toInt = n := Int32.toInt_ofNat_of_lt (by omega)
  have hstart : (Int64.ofNat (FileHeader.size + (Item.payload (items.take n)).length)).toInt =
      (FileHeader.size + (Item.payload (items.take n)).length : Nat) :=
    Int64.toInt_ofNat_of_lt (by unfold FileHeader.size; omega)
  rw [hentry]
  refine VfdaySession.checkEntry_eq_ok.mpr ⟨?_, ?_, ?_, ?_, htimes, ?_⟩
  · rw [Int32.lt_iff_toInt_lt, Item.dirEntry, hindex, Int32.toInt_zero]
    omega
  · rw [Item.dirEntry, hindex, Int.toNat_natCast]
    exact List.getElem?_eq_getElem hn'
  · rw [Int64.lt_iff_toInt_lt, Item.dirEntry, hstart, Int64.toInt_ofNat_of_lt (by decide)]
    omega
  · have hend := toInt_add_toInt64 hstart (UInt32.toNat_ofNat_of_lt' hblob) (by unfold FileHeader.size; omega)
    rw [Int64.lt_iff_toInt_lt, Item.dirEntry, hend, htableOffset]
    omega
  · rw [hentered.length]
    exact not_lt.mpr hentered.name.bound

end Writer

/-! ## Columns -/

namespace VfdaySession

theorem nextColumn_encodeColumn {path : String} {rowCount : UInt32} {values : List Int64}
    (hlen : values.length = rowCount.toNat) (rest : Bytes) :
    nextColumn path rowCount (encodeColumn values ++ rest) = .ok (values, rest) := by
  have hsize : values.length < 2 ^ 64 := by
    have hlt := rowCount.toNat_lt
    omega
  have hdecode : decodeColumn (encodeColumn values ++ rest) = some ((encodeColumn values).length, values) := by
    unfold decodeColumn
    rw [readColumn_encodeColumn hsize]
    simp
  unfold nextColumn
  rw [hdecode]
  dsimp only
  rw [if_neg (not_not.mpr hlen), List.drop_left]

/-- The columns of a price or a quantity survive being widened and cut down. -/
theorem map_toInt32_toInt64 (xs : List Int32) : (xs.map (·.toInt64)).map (·.toInt32) = xs := by
  rw [List.map_map]
  refine (List.map_congr_left (fun x _ => ?_)).trans (List.map_id xs)
  exact Int32.toInt32_toInt64 x

/-- **The columns decode.** -/
theorem decodeColumns_encodeColumns {path : String} {c : QuoteColumns} {e : Entry} (haligned : c.Aligned)
    (hrows : c.size = e.rowCount.toNat) (hfirst : c.ts.headD 0 = e.first) (hlast : c.ts.getLastD 0 = e.last) :
    decodeColumns path e (encodeColumns c) = .ok c := by
  obtain ⟨hlast', hbid, hask, hbidQty, haskQty, hlastQty, hinterest⟩ := haligned
  have hwide : ∀ {xs : List Int32}, xs.length = c.ts.length → (xs.map (·.toInt64)).length = e.rowCount.toNat := by
    intro xs hxs
    rw [List.length_map, hxs]
    exact hrows
  have htail : encodeColumn c.openInterest = encodeColumn c.openInterest ++ [] := (List.append_nil _).symm
  unfold decodeColumns encodeColumns
  rw [nextColumn_encodeColumn hrows]
  simp only [bind, Except.bind]
  rw [nextColumn_encodeColumn (hwide hlast')]
  dsimp only
  rw [nextColumn_encodeColumn (hwide hbid)]
  dsimp only
  rw [nextColumn_encodeColumn (hwide hask)]
  dsimp only
  rw [nextColumn_encodeColumn (hwide hbidQty)]
  dsimp only
  rw [nextColumn_encodeColumn (hwide haskQty)]
  dsimp only
  rw [nextColumn_encodeColumn (hwide hlastQty)]
  dsimp only
  rw [htail, nextColumn_encodeColumn (hinterest.trans hrows)]
  dsimp only
  rw [failIf_of_not (by simp)]
  dsimp only
  rw [failIf_of_not (by rw [hfirst, hlast]; simp)]
  dsimp only
  simp only [map_toInt32_toInt64]
  rfl

end VfdaySession

/-! ## Opening -/

theorem InstrumentKind.ofByte_toByte (k : InstrumentKind) : InstrumentKind.ofByte k.toByte = k := by
  cases k with
  | Spot => rfl
  | Future => rfl
  | Option => rfl
  | unnamed c h =>
      have hne : ∀ d : UInt8, ¬ 3 ≤ d → c ≠ d := fun d hd hc => hd (hc ▸ h)
      unfold toByte ofByte
      rw [if_neg (hne 0 (by decide)), if_neg (hne 1 (by decide)), if_neg (hne 2 (by decide)), dif_pos h]

theorem Right.ofByte_toByte (r : Right) : Right.ofByte r.toByte = r := by
  cases r with
  | Call => rfl
  | Put => rfl
  | unnamed c h =>
      have hne : ∀ d : UInt8, ¬ 2 ≤ d → c ≠ d := fun d hd hc => hd (hc ▸ h)
      unfold toByte ofByte
      rw [if_neg (hne 0 (by decide)), if_neg (hne 1 (by decide)), dif_pos h]

theorem InstrumentKind.toByte_ofByte : ∀ b : UInt8, (ofByte b).toByte = b := forall_byte (by decide +kernel)

theorem Right.toByte_ofByte : ∀ b : UInt8, (ofByte b).toByte = b := forall_byte (by decide +kernel)

/-- The identity of an item's contract. -/
def Item.identity (i : Item) : Identity where
  name := i.name
  kind := i.spec.kind
  expiry := i.spec.expiry
  strike := i.spec.strike
  right := (InstrumentRegistry.keyOf i.spec).right

namespace Writer

theorem Entered.nameOf {w : Writer} {session : SessionData} {timeline : List Timestamp} {t : TableEntry} {i : Item}
    (h : Entered w.strings t i) : VfdaySession.nameOf (w.image session timeline).metadata t = i.name := by
  have hname := h.name.content
  rw [← h.length] at hname
  exact hname

/-- The contract read back is the item's, under the id its name has been given. -/
theorem Entered.specOf {strings : Bytes} {t : TableEntry} {i : Item} (h : Entered strings t i) (u : UnderlyingId) :
    VfdaySession.specOf t u = { i.spec with id := -1, underlying := u } := by
  unfold VfdaySession.specOf
  rw [h.kind, h.right, h.expiry, h.strike, h.lotSize, h.tickSize, InstrumentKind.ofByte_toByte, Right.ofByte_toByte]

theorem Entered.identityOf {w : Writer} {session : SessionData} {timeline : List Timestamp} {t : TableEntry} {i : Item}
    (h : Entered w.strings t i) : VfdaySession.identityOf (w.image session timeline).metadata t = i.identity := by
  have hspec := h.specOf 0
  unfold VfdaySession.identityOf Item.identity
  rw [h.nameOf, hspec, h.kind, h.expiry, h.strike, InstrumentKind.ofByte_toByte]
  rfl

/-- The rows of the directory are the rows of the items. -/
theorem rowsOf_directoryFrom {items : List Item} (hitems : ∀ i ∈ items, i.Fits) (k offset : Nat) (rows : UInt64) :
    VfdaySession.rowsOf (Item.directoryFrom k offset items) rows =
      rows + UInt64.ofNat (items.map (·.columns.size)).sum := by
  induction items generalizing k offset rows with
  | nil => simp [Item.directoryFrom, VfdaySession.rowsOf]
  | cons i items ih =>
      have hrow : (i.dirEntry k offset).rowCount.toUInt64 = UInt64.ofNat i.columns.size := by
        have hlt := (hitems i (List.mem_cons_self ..)).rows
        apply UInt64.toNat_inj.mp
        rw [UInt32.toNat_toUInt64, UInt64.toNat_ofNat_of_lt' (lt_trans hlt (by decide))]
        exact UInt32.toNat_ofNat_of_lt' hlt
      have hcons : ∀ es : List DirEntry, VfdaySession.rowsOf (i.dirEntry k offset :: es) rows =
          VfdaySession.rowsOf es (rows + (i.dirEntry k offset).rowCount.toUInt64) := fun _ => rfl
      rw [Item.directoryFrom, hcons, ih (fun j hj => hitems j (List.mem_cons_of_mem _ hj)), hrow, List.map_cons,
        List.sum_cons, UInt64.ofNat_add, UInt64.add_assoc]

/-- The session a file of the buffers opens as. -/
def opened (w : Writer) (session : SessionData) (timeline : List Timestamp) (path : String) (r : InstrumentRegistry) :
    VfdaySession :=
  (VfdaySession.startSession path (w.image session timeline).bytes (w.image session timeline).metadata).extend
    (VfdaySession.registerMany (w.image session timeline).metadata w.table r).1 w.directory

/-- Distinct contracts are registered under distinct ids. -/
theorem Holds.nodup_ids {w : Writer} {items : List Item} (h : w.Holds items)
    (hdistinct : (items.map Item.identity).Nodup) (session : SessionData) (timeline : List Timestamp)
    {r : InstrumentRegistry} (hr : r.Sound) :
    (VfdaySession.registerMany (w.image session timeline).metadata w.table r).1.Nodup := by
  have hidentities : w.table.map (VfdaySession.identityOf (w.image session timeline).metadata) =
      items.map Item.identity := IdTable.map_eq_map h.table (fun t i ht => ht.identityOf)
  rw [VfdaySession.nodup_registerMany hr, hidentities]
  exact hdistinct

/-- **A file of the writer opens.** -/
theorem Holds.opens {w : Writer} {items : List Item} (h : w.Holds items) {session : SessionData}
    {timeline : List Timestamp} (hfits : w.Fits timeline) (hitems : ∀ i ∈ items, i.Fits)
    (hascending : ascending (timeline.map Int64.ofInt) = true) (hdistinct : (items.map Item.identity).Nodup)
    (hrows : session.totalObservations = (items.map (·.columns.size)).sum) (path : String) {r : InstrumentRegistry}
    (hr : r.Sound) : VfdaySession.openFile path (w.image session timeline).bytes r =
      (.ok (w.opened session timeline path r),
        (VfdaySession.registerMany (w.image session timeline).metadata w.table r).2) := by
  have hdescribed : (w.image session timeline).Described := hfits.described hascending
  refine hdescribed.openFile_eq_ok.mpr ⟨w.table, h.checked hfits hitems path,
    h.nodup_ids hdistinct session timeline hr, rfl, ?_, rfl⟩
  have hdirectory : (w.image session timeline).directory = Item.directoryFrom 0 0 items := h.directory
  rw [hdirectory, rowsOf_directoryFrom hitems, UInt64.zero_add, ← hrows]
  rfl

end Writer

/-! ## The opened session -/

theorem lookup_zip {β : Type} {ids : List InstrumentId} {es : List β} (hnodup : ids.Nodup) {n : Nat} {id : InstrumentId}
    {e : β} (hid : ids[n]? = some id) (he : es[n]? = some e) : (ids.zip es).lookup id = some e := by
  induction ids generalizing es n with
  | nil => cases hid
  | cons id' ids ih =>
      cases es with
      | nil => cases he
      | cons e' es =>
          rw [List.zip_cons_cons, List.lookup_cons]
          cases n with
          | zero =>
              cases hid
              cases he
              simp
          | succ n =>
              rw [List.getElem?_cons_succ] at hid he
              have hne : (id == id') = false := by
                rw [beq_eq_false_iff_ne]
                rintro rfl
                exact (List.nodup_cons.mp hnodup).1 (List.mem_of_getElem? hid)
              rw [hne]
              exact ih (List.nodup_cons.mp hnodup).2 hid he

/-- Aligned columns without a row are the default ones. -/
theorem eq_default_of_isEmpty {c : QuoteColumns} (haligned : c.Aligned) (h : c.ts.isEmpty = true) : c = {} := by
  obtain ⟨hlast, hbid, hask, hbidQty, haskQty, hlastQty, hinterest⟩ := haligned
  have hts : c.ts = [] := List.isEmpty_iff.mp h
  rw [hts, List.length_nil, List.length_eq_zero_iff] at hlast hbid hask hbidQty haskQty hlastQty hinterest
  cases c
  simp_all

/-- Something was printed by `t` exactly when the first row was. -/
theorem indexAtOrBefore_isSome_iff (c : QuoteColumns) (t : Timestamp) :
    (c.indexAtOrBefore t).isSome = (0 < c.size && (c.ts.headD 0).toInt ≤ t) := by
  unfold QuoteColumns.indexAtOrBefore QuoteColumns.upperBound QuoteColumns.size
  cases c.ts with
  | nil => rfl
  | cons x xs =>
      by_cases hx : x.toInt ≤ t
      · simp [hx]
      · simp [hx]

namespace VfdaySession

/-- A blob that can be read, with its checksum, is decoded. -/
theorem materialise_eq {s : VfdaySession} {id : InstrumentId} {e : Entry} {raw : Bytes}
    (hlookup : s.entries.lookup id = some e) (hread : readAt s.file e.blobOffset e.blobBytes.toNat = some raw)
    (hcrc : crc32 raw = e.blobCrc) : s.materialise id = decodeColumns s.path e raw := by
  unfold materialise
  rw [hlookup]
  dsimp only
  rw [hread]
  dsimp only
  rw [if_neg (not_not.mpr hcrc)]

theorem quotes_eq {s : VfdaySession} {id : InstrumentId} {c : QuoteColumns} (haligned : c.Aligned)
    (h : s.materialise id = .ok c) : s.quotes id = .ok c := by
  unfold quotes
  rw [h]
  simp only [bind, Except.bind]
  by_cases hempty : c.ts.isEmpty = true
  · rw [if_pos hempty, eq_default_of_isEmpty haligned hempty]
    rfl
  · rw [if_neg hempty]
    rfl

end VfdaySession

namespace Writer

/-- What the opened session answers for its listed contracts. -/
theorem Holds.answers {w : Writer} {items : List Item} (h : w.Holds items) {session : SessionData}
    {timeline : List Timestamp} (hfits : w.Fits timeline) (hitems : ∀ i ∈ items, i.Fits) (path : String)
    {r : InstrumentRegistry}
    (hnodup : (VfdaySession.registerMany (w.image session timeline).metadata w.table r).1.Nodup) :
    List.Forall₂ (fun id i => (w.opened session timeline path r).quotes id = .ok i.columns ∧
      ∀ t, (w.opened session timeline path r).printedBy id t = (i.columns.indexAtOrBefore t).isSome)
      (w.opened session timeline path r).instruments items := by
  have hlenT : w.table.length = items.length := h.table.length_eq
  have hinstruments : (w.opened session timeline path r).instruments =
      (VfdaySession.registerMany (w.image session timeline).metadata w.table r).1 := rfl
  have hentries : (w.opened session timeline path r).entries =
      (VfdaySession.registerMany (w.image session timeline).metadata w.table r).1.zip
        (w.directory.map VfdaySession.entryOf) := rfl
  rw [hinstruments]
  refine List.forall₂_iff_get.mpr ⟨(VfdaySession.length_registerMany _ _ _).trans hlenT, fun n hn hn' => ?_⟩
  rw [List.get_eq_getElem, List.get_eq_getElem]
  have hitem : items[n]? = some items[n] := List.getElem?_eq_getElem hn'
  obtain ⟨haligned, hrows, hblob, htimes⟩ := hitems items[n] (List.getElem_mem hn')
  let entry := items[n].dirEntry n (Item.payload (items.take n)).length
  have hget : (w.directory.map VfdaySession.entryOf)[n]? = some (VfdaySession.entryOf entry) := by
    rw [h.directory, List.getElem?_map, Item.getElem?_directoryFrom, hitem, Nat.zero_add, Nat.zero_add]
    rfl
  have hid := List.getElem?_eq_getElem hn
  generalize (VfdaySession.registerMany (w.image session timeline).metadata w.table r).1[n] = id at hid ⊢
  have hlookup : (w.opened session timeline path r).entries.lookup id = some (VfdaySession.entryOf entry) :=
    hentries ▸ lookup_zip hnodup hid hget
  have hrowCount : entry.rowCount.toNat = items[n].columns.size := UInt32.toNat_ofNat_of_lt' hrows
  have hblobBytes : entry.blobBytes.toNat = items[n].blob.length := UInt32.toNat_ofNat_of_lt' hblob
  constructor
  · -- the entry points at the blob of its item, behind the header and the blobs before it
    have hread : readAt (w.image session timeline).bytes entry.blobOffset entry.blobBytes.toNat = some items[n].blob := by
      have hheader : (headerOf session w timeline).bytes.length = FileHeader.size := FileHeader.length_bytes rfl
      have hsplit := Item.payload_split hitem
      have hoffset : entry.blobOffset.toInt =
          ((headerOf session w timeline).bytes ++ Item.payload (items.take n)).length := by
        have hbound := hfits.blob
        rw [h.blob, hsplit, List.length_append] at hbound
        rw [List.length_append, hheader]
        exact Int64.toInt_ofNat_of_lt (by unfold FileHeader.size; omega)
      have hfile : (w.image session timeline).bytes =
          ((headerOf session w timeline).bytes ++ Item.payload (items.take n)) ++
            (items[n].blob ++ (Item.payload (items.drop (n + 1)) ++ (w.table.flatMap TableEntry.bytes ++ (w.strings ++
              ((timeline.map Int64.ofInt).flatMap (fun t => put64 t.toUInt64) ++
                w.directory.flatMap DirEntry.bytes))))) := by
        show _ ++ (w.blob ++ _) = _
        rw [h.blob, hsplit, List.append_assoc, List.append_assoc, List.append_assoc]
        rfl
      rw [hfile, readAt_append hoffset hblobBytes.le, hblobBytes, List.take_length]
    have hcrc : crc32 items[n].blob = entry.blobCrc := by
      show _ = crc32 (items[n].blob.take entry.blobBytes.toNat)
      rw [hblobBytes, List.take_length]
    have hcolumns : VfdaySession.decodeColumns path (VfdaySession.entryOf entry) items[n].blob = .ok items[n].columns :=
      VfdaySession.decodeColumns_encodeColumns haligned hrowCount.symm rfl rfl
    exact VfdaySession.quotes_eq haligned ((VfdaySession.materialise_eq hlookup hread hcrc).trans hcolumns)
  · intro t
    unfold VfdaySession.printedBy
    rw [hlookup, indexAtOrBefore_isSome_iff, ← hrowCount]
    rfl

end Writer

/-! ## Writing -/

/-- The item the loop takes for an instrument. -/
structure SessionData.ItemOf (session : SessionData) (id : InstrumentId) (i : Item) : Prop where
  spec : session.registry.spec id = .ok i.spec
  name : session.registry.underlyingName i.spec.underlying = .ok i.name
  columns : i.columns = session.quotes id

/-- The instruments that have rows. -/
def SessionData.printing (session : SessionData) : List InstrumentId :=
  session.instruments.filter (fun id => !(session.quotes id).isEmpty)

namespace Writer

/-- The loop over instruments is the loop over their items. -/
theorem foldlM_step {session : SessionData} {ids : List InstrumentId} {items : List Item}
    (h : List.Forall₂ session.ItemOf (ids.filter (fun id => !(session.quotes id).isEmpty)) items) (w : Writer) :
    ids.foldlM (Writer.step session) w = .ok (items.foldl (fun w i => w.addInstrument i.spec i.name i.columns) w) := by
  induction ids generalizing items w with
  | nil =>
      cases h
      rfl
  | cons id ids ih =>
      rw [List.foldlM_cons]
      unfold Writer.step
      by_cases hempty : (session.quotes id).isEmpty = true
      · rw [List.filter_cons_of_neg (by simp [hempty])] at h
        dsimp only
        rw [if_pos hempty]
        exact ih h w
      · rw [List.filter_cons_of_pos (by simp [hempty])] at h
        cases h with
        | @cons _ i _ items hi h =>
            dsimp only
            rw [if_neg hempty, hi.spec]
            simp only [bind, Except.bind]
            rw [hi.name, ← hi.columns]
            exact ih h _

/-- The bytes of buffers that fit are those of their image. -/
theorem Fits.writeVfday {session : SessionData} {w : Writer} (h : w.Fits (timelineOf session))
    (hloop : session.instruments.foldlM (Writer.step session) {} = .ok w) :
    writeVfday session = .ok (w.image session (timelineOf session)).bytes := by
  have htable : (w.table.flatMap TableEntry.bytes).length < 2 ^ 32 := by
    rw [length_flatMap_bytes TableEntry.length_bytes]
    exact h.table
  have hdirectory : (w.directory.flatMap DirEntry.bytes).length < 2 ^ 32 := by
    rw [length_flatMap_bytes DirEntry.length_bytes]
    exact h.directory
  -- a length that fits its field cuts nothing off
  have htake : ∀ {region : Bytes}, region.length < 2 ^ 32 → region.take (UInt32.ofNat region.length).toNat = region := by
    intro region hlen
    rw [UInt32.toNat_ofNat_of_lt' hlen, List.take_length]
  unfold Volforge.writeVfday
  rw [hloop]
  simp only [bind, Except.bind]
  refine congrArg Except.ok ?_
  unfold Image.bytes image
  rw [timelineBytes_eq]
  have hT : (w.table.flatMap TableEntry.bytes).take (headerOf session w (timelineOf session)).tableBytes.toNat =
      w.table.flatMap TableEntry.bytes := htake htable
  have hS : w.strings.take (headerOf session w (timelineOf session)).stringsBytes.toNat = w.strings := htake h.strings
  have hD : (w.directory.flatMap DirEntry.bytes).take
      (headerOf session w (timelineOf session)).directoryBytes.toNat = w.directory.flatMap DirEntry.bytes :=
    htake hdirectory
  rw [hT, hS, hD]

end Writer

/-! ## One instrument -/

namespace Item

/-- The buffers after one item. -/
def writer (i : Item) : Writer := ({} : Writer).addInstrument i.spec i.name i.columns

theorem writer_holds {i : Item} (hname : i.name.length < 2 ^ 32) : i.writer.Holds [i] :=
  Writer.addInstrument_holds Writer.holds_empty i hname

theorem writer_fits {i : Item} (hi : i.Fits) (hname : i.name.length < 2 ^ 32) {timeline : List Timestamp}
    (htimeline : timeline.length < 2 ^ 32) : i.writer.Fits timeline where
  table := show 1 * 28 < 2 ^ 32 by decide
  strings := hname
  timeline := htimeline
  directory := show 1 * 40 < 2 ^ 32 by decide
  blob := lt_trans hi.blob (by decide)

end Item

end Volforge
