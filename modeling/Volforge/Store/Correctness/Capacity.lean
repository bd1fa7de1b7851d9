import Volforge.Core.Correctness.Fills
import Volforge.Store.Correctness.Written

/-!
# `Store.Correctness.Capacity` — how much a day file holds

Bounds on what the writer produces, linear in what it is given, and the one on what a reader can find: the
count of the timeline has 32 bits.

## Contents
- **Columns.** What a varint, a block, a column and eight columns take at most.
- **Names.** The string table.
- **Blobs.** `encoding_never_inflates`: what the directory states of a blob's length.
- **Timeline.** Its 32-bit count.
-/

namespace Volforge

/-! ## Columns -/

theorem length_putVarintFrom_le (k : Nat) (v : UInt64) : (putVarintFrom k v).length ≤ k + 1 := by
  induction k generalizing v with
  | zero => exact le_rfl
  | succ k ih =>
      unfold putVarintFrom
      split_ifs
      · rw [List.length_cons]
        exact Nat.succ_le_succ (ih _)
      · rw [List.length_singleton]
        omega

theorem length_putVarint_le (v : UInt64) : (putVarint v).length ≤ 10 := length_putVarintFrom_le 9 v

theorem length_pack_le {values : List UInt64} {bits : Nat} (hbits : bits ≤ kMaxPackedBits) :
    (pack values bits).length ≤ 8 * values.length := by
  unfold pack
  split_ifs
  · exact Nat.zero_le _
  · rw [(packFrom_spec hbits values 0 0 (by decide) (by decide)).1]
    have hle : values.length * bits ≤ values.length * 56 := Nat.mul_le_mul_left _ hbits
    omega

/-- The bytes of the residuals of a block. -/
theorem length_residuals_le (residuals : List UInt64) {bits : Nat} (hbits : bits ≤ kMaxPackedBits ∨ bits = 64) :
    (if bits = 64 then residuals.flatMap rawBytes else pack residuals bits).length ≤ 8 * residuals.length := by
  by_cases hraw : bits = 64
  · rw [if_pos hraw, length_flatMap_bytes length_rawBytes, Nat.mul_comm]
  · rw [if_neg hraw]
    exact length_pack_le (hbits.resolve_right hraw)

/-- A block takes at most eight bytes for a residual, and eleven more. -/
theorem length_encodeBlock_le (scale : UInt64) (raw : List Int64) : (encodeBlock scale raw).length ≤ 11 + 8 * raw.length := by
  unfold encodeBlock
  dsimp only
  generalize hresiduals : List.map (fun d : Int64 => d.toUInt64 - _) _ = residuals
  have hlen : residuals.length = raw.length := by rw [← hresiduals, List.length_map, List.length_map]
  generalize hbits : (if kMaxPackedBits < bitsFor (residuals.foldl max 0) then 64 else _) = bits
  have hwidth : bits ≤ kMaxPackedBits ∨ bits = 64 := by
    rw [← hbits]
    split_ifs with hwide
    · exact .inr rfl
    · exact .inl (not_lt.mp hwide)
  have hbody := length_residuals_le residuals hwidth
  have hmin := length_putVarint_le (zigzag ((raw.map (fun d => if scale = 1 then d else d / scale.toInt64)).foldl min
    Int64.maxValue))
  rw [List.length_append, List.length_cons]
  omega

theorem length_encodeBlocks_le (scale : UInt64) (blocks : Nat) (raw : List Int64) :
    (encodeBlocks scale blocks raw).length ≤ 11 * blocks + 8 * raw.length := by
  induction blocks generalizing raw with
  | zero => exact Nat.zero_le _
  | succ blocks ih =>
      have hblock := length_encodeBlock_le scale (raw.take kCodecBlock)
      have hrest := ih (raw.drop kCodecBlock)
      have hsplit : (raw.take kCodecBlock).length + (raw.drop kCodecBlock).length = raw.length := by
        rw [← List.length_append, List.take_append_drop]
      rw [encodeBlocks, List.length_append]
      omega

/-- **A column** takes at most eight bytes for each value but the first, eleven more for a block of them, and thirty. -/
theorem length_encodeColumn_cons_le (first : Int64) (rest : List Int64) :
    (encodeColumn (first :: rest)).length ≤ 30 + 8 * rest.length + 11 * blockCount rest.length := by
  have hcount := length_putVarint_le (UInt64.ofNat (first :: rest).length)
  have hfirst := length_putVarint_le (zigzag first)
  have hscale := length_putVarint_le (scaleOf first rest)
  have hblocks := length_encodeBlocks_le (scaleOf first rest) (blockCount rest.length) (rawDeltas first rest)
  rw [length_rawDeltas] at hblocks
  unfold encodeColumn
  simp only [List.length_append]
  omega

theorem length_encodeColumn_bound (values : List Int64) :
    (encodeColumn values).length ≤ 30 + 8 * values.length + 11 * blockCount values.length := by
  cases values with
  | nil => exact le_trans (length_putVarint_le 0) (by decide)
  | cons first rest =>
      have hle := length_encodeColumn_cons_le first rest
      have hmono : blockCount rest.length ≤ blockCount (first :: rest).length := by
        unfold blockCount
        exact Nat.div_le_div_right (by simp)
      rw [List.length_cons] at hmono ⊢
      omega

/-- A column takes at most nineteen bytes for a value, and thirty more. -/
theorem length_encodeColumn_le (values : List Int64) : (encodeColumn values).length ≤ 30 + 19 * values.length := by
  have hle := length_encodeColumn_bound values
  have hturns : blockCount values.length ≤ values.length := by
    unfold blockCount kCodecBlock
    omega
  omega

/-- Columns of one length take eight times what bounds one of them. -/
theorem length_encodeColumns_of_le {c : QuoteColumns} (haligned : c.Aligned) {bound : Nat}
    (hcolumn : ∀ values : List Int64, values.length = c.size → (encodeColumn values).length ≤ bound) :
    (encodeColumns c).length ≤ 8 * bound := by
  obtain ⟨hlast, hbid, hask, hbidQty, haskQty, hlastQty, hinterest⟩ := haligned
  have hwide : ∀ xs : List Int32, xs.length = c.ts.length → (encodeColumn (xs.map (·.toInt64))).length ≤ bound :=
    fun xs hxs => hcolumn _ ((List.length_map _).trans hxs)
  have hts := hcolumn c.ts rfl
  have h₁ := hwide _ hlast
  have h₂ := hwide _ hbid
  have h₃ := hwide _ hask
  have h₄ := hwide _ hbidQty
  have h₅ := hwide _ haskQty
  have h₆ := hwide _ hlastQty
  have h₇ := hcolumn _ hinterest
  unfold encodeColumns
  simp only [List.length_append]
  omega

theorem length_encodeColumns_le {c : QuoteColumns} (haligned : c.Aligned) :
    (encodeColumns c).length ≤ 8 * (30 + 19 * c.size) := by
  refine length_encodeColumns_of_le haligned (fun values hvalues => ?_)
  rw [← hvalues]
  exact length_encodeColumn_le values

/-- The blob of sixty million rows has a length of 32 bits. -/
theorem length_encodeColumns_lt {c : QuoteColumns} (haligned : c.Aligned) (hrows : c.size ≤ 60000000) :
    (encodeColumns c).length < 2 ^ 32 := by
  have hmono : blockCount c.size ≤ blockCount 60000000 := by
    unfold blockCount
    exact Nat.div_le_div_right (Nat.add_le_add_right hrows _)
  have hblocks : blockCount 60000000 = 468750 := by decide
  have hle := length_encodeColumns_of_le haligned (fun values hvalues => hvalues ▸ length_encodeColumn_bound values)
  omega

/-! ## Names -/

namespace Writer

/-- The string table is no longer than the names that were added. -/
theorem length_strings_le (items : List Item) (w : Writer) :
    (items.foldl (fun w i => w.addInstrument i.spec i.name i.columns) w).strings.length ≤
      w.strings.length + (items.map (·.name.length)).sum := by
  induction items generalizing w with
  | nil => exact le_rfl
  | cons i items ih =>
      rw [List.foldl_cons, List.map_cons, List.sum_cons]
      have hstep : (w.addInstrument i.spec i.name i.columns).strings.length ≤ w.strings.length + i.name.length := by
        rw [addInstrument_strings]
        unfold intern
        cases w.interned.lookup i.name with
        | some offset => exact Nat.le_add_right ..
        | none => exact (List.length_append ..).le
      have hrest := ih (w.addInstrument i.spec i.name i.columns)
      omega

end Writer

/-! ## Blobs -/

namespace Writer

/-- The blobs lie one after the other, and each entry states the length of its own, as far as 32 bits go. -/
structure Stores (w : Writer) (columns : List QuoteColumns) : Prop where
  blob : w.blob = columns.flatMap encodeColumns
  directory : List.Forall₂ (fun (c : QuoteColumns) (e : DirEntry) => e.blobBytes = UInt32.ofNat (encodeColumns c).length)
    columns w.directory

theorem stores_empty : Stores {} [] := ⟨rfl, .nil⟩

theorem intern_kept (w : Writer) (name : Bytes) :
    (w.intern name).1.blob = w.blob ∧ (w.intern name).1.directory = w.directory := by
  unfold intern
  cases w.interned.lookup name with
  | none => exact ⟨rfl, rfl⟩
  | some offset => exact ⟨rfl, rfl⟩

/-- The step lemma of the instrument loop. -/
theorem Stores.step {session : SessionData} {id : InstrumentId} {w w' : Writer} {columns : List QuoteColumns}
    (h : w.Stores columns) (hstep : Writer.step session w id = .ok w') :
    w'.Stores (columns ++ if (session.quotes id).isEmpty then [] else [session.quotes id]) := by
  unfold Writer.step at hstep
  dsimp only at hstep
  split_ifs at hstep ⊢ with hempty
  · cases hstep
    rw [List.append_nil]
    exact h
  · obtain ⟨spec, _, hstep⟩ := Run.bind_eq_ok.mp hstep
    obtain ⟨name, _, hstep⟩ := Run.bind_eq_ok.mp hstep
    cases hstep
    have hkept := intern_kept w name
    unfold addInstrument
    dsimp only
    constructor
    · rw [List.flatMap_append, List.flatMap_singleton, ← h.blob, hkept.1]
    · rw [hkept.2]
      exact List.rel_append h.directory (.cons rfl .nil)

/-- The run lemma of the instrument loop. -/
theorem Stores.run {session : SessionData} {ids : List InstrumentId} {w w' : Writer} {columns : List QuoteColumns}
    (h : w.Stores columns) (hloop : ids.foldlM (Writer.step session) w = .ok w') :
    w'.Stores (columns ++ (ids.filter (fun id => !(session.quotes id).isEmpty)).map session.quotes) := by
  induction ids generalizing w columns with
  | nil =>
      rw [Run.foldlM_nil_ok.mp hloop, List.filter_nil, List.map_nil, List.append_nil]
      exact h
  | cons id ids ih =>
      obtain ⟨m, hstep, hrest⟩ := Run.foldlM_cons_ok.mp hloop
      have hnext := ih (h.step hstep) hrest
      by_cases hempty : (session.quotes id).isEmpty = true
      · rw [if_pos hempty, List.append_nil] at hnext
        rw [List.filter_cons_of_neg (by simp [hempty])]
        exact hnext
      · rw [if_neg hempty, List.append_assoc] at hnext
        rw [List.filter_cons_of_pos (by simp [hempty])]
        exact hnext

end Writer

/-- **Encoding never inflates.** A column of at least one value takes at most eight bytes for each value but the first,
    eleven for each block of 128 of them, and thirty more. And so the `blob_bytes` of an instrument with at most sixty
    million rows is the length of its blob, whatever else the session holds. -/
theorem encoding_never_inflates :
    (∀ values : List Int64, 1 ≤ values.length → (encodeColumn values).length ≤
      30 + 8 * (values.length - 1) + 11 * ((values.length - 1 + 127) / 128)) ∧
    ∀ (session : SessionData) (w : Writer), session.instruments.foldlM (Writer.step session) {} = .ok w →
      w.blob = session.printing.flatMap (fun id => encodeColumns (session.quotes id)) ∧
      List.Forall₂ (fun id (e : DirEntry) => (session.quotes id).Aligned → (session.quotes id).size ≤ 60000000 →
        e.blobBytes.toNat = (encodeColumns (session.quotes id)).length) session.printing w.directory := by
  constructor
  · intro values hvalues
    cases values with
    | nil => exact absurd hvalues (by decide)
    | cons first rest => exact length_encodeColumn_cons_le first rest
  · intro session w hloop
    obtain ⟨hblob, hdirectory⟩ := Writer.stores_empty.run hloop
    rw [List.nil_append] at hblob hdirectory
    constructor
    · rw [hblob, List.flatMap_map]
      rfl
    · rw [List.forall₂_map_left_iff] at hdirectory
      refine hdirectory.imp (fun id e hbytes haligned hrows => ?_)
      rw [hbytes]
      exact UInt32.toNat_ofNat_of_lt' (length_encodeColumns_lt haligned hrows)

/-- Three values in one block, and a session of one instrument that is written. -/
theorem encoding_never_inflates_flat :
    (encodeColumn [1, 1, 2]).length ≤ 30 + 8 * 2 + 11 * 1 ∧
    ∃ w, (flatSession ⟨20250701⟩ [1, 1, 2]).instruments.foldlM (Writer.step (flatSession ⟨20250701⟩ [1, 1, 2])) {} = .ok w ∧
      ∃ e, w.directory = [e] ∧ e.blobBytes.toNat = (encodeColumns (flatQuotes [1, 1, 2])).length := by
  obtain ⟨hcolumn, hwriter⟩ := encoding_never_inflates
  refine ⟨hcolumn [1, 1, 2] (by decide), ?_⟩
  obtain ⟨w, hloop, _⟩ := Run.exists_of_succeeds (fun _ : Writer => true)
    ((flatSession ⟨20250701⟩ [1, 1, 2]).instruments.foldlM (Writer.step (flatSession ⟨20250701⟩ [1, 1, 2])) {})
    (by decide +kernel)
  refine ⟨w, hloop, ?_⟩
  obtain ⟨_, hdirectory⟩ := hwriter _ w hloop
  have hprinting : (flatSession ⟨20250701⟩ [1, 1, 2]).printing = [0] := rfl
  rw [hprinting] at hdirectory
  generalize w.directory = directory at hdirectory ⊢
  cases hdirectory with
  | @cons _ e _ _ hbytes hnone =>
      cases hnone
      exact ⟨e, rfl, hbytes (by constructor <;> rfl) (by decide)⟩

/-! ## Timeline -/

/-- **The timeline** of an opened file has fewer than `2 ^ 32` times. -/
theorem VfdaySession.timeline_lt {path : String} {file : Bytes} {r r' : InstrumentRegistry} {s : VfdaySession}
    (h : openFile path file r = (.ok s, r')) : s.timeline.length < 2 ^ 32 := by
  obtain ⟨m, ts, hm, _, _, rfl, _, _⟩ := openFile_eq_ok.mp h
  obtain ⟨raw, _, htimeline⟩ := hm.timeline
  show (m.timeline.map (·.toInt)).length < 2 ^ 32
  rw [List.length_map, htimeline, List.length_map, length_readMany]
  exact m.header.timelineCount.toNat_lt

end Volforge
