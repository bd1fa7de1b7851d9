import Volforge.Lib.Reader
import Volforge.Store.Correctness.Codec

/-!
# `Store.Correctness.Truncated` — a column is read off its own bytes

The decoder reads a varint, a width byte or a block of known size at a time, and looks at nothing after what it takes. So
it refuses a column that is cut anywhere, and what follows a column does not matter.

## Contents
- **Readers.** Each reader of the decoder is local.
- **Counts.** The values that come out are those that were announced.
- **Main result.** `truncated_columns_refused`.
- **The output vector.** It is resized before any value is read: `malformed_columns_reported_iff`.
-/

namespace Volforge

open Reader

/-! ## Readers

`Local` says that what follows is not looked at. It is proved of each reader of the codec, from the ones it is
made of. -/

theorem local_getVarintFrom (shift : Nat) (out : UInt64) : Local (getVarintFrom shift out) := by
  intro p v rest hread
  induction p generalizing shift out with
  | nil => cases hread
  | cons byte p ih =>
      rw [getVarintFrom] at hread
      split at hread
      case isTrue hlast =>
        obtain ⟨rfl, rfl⟩ := Prod.mk.inj (Option.some.inj hread)
        refine ⟨[byte], rfl, fun rest' => ?_⟩
        rw [List.singleton_append, getVarintFrom]
        exact if_pos hlast
      case isFalse hmore =>
        rw [Option.ite_none_left_eq_some] at hread
        obtain ⟨hshort, hread⟩ := hread
        obtain ⟨used, rfl, hused⟩ := ih _ _ hread
        refine ⟨byte :: used, rfl, fun rest' => ?_⟩
        rw [List.cons_append, getVarintFrom]
        rw [if_neg hmore, if_neg hshort]
        exact hused rest'

/-- A varint is read off its own bytes. -/
theorem local_getVarint : Local getVarint := local_getVarintFrom 0 0

/-- A varint takes a byte. -/
theorem length_lt_getVarint {p : Bytes} {v : UInt64} {rest : Bytes} (h : getVarint p = some (v, rest)) :
    rest.length < p.length := by
  obtain ⟨used, rfl, hused⟩ := local_getVarint _ _ _ h
  have hne : used ≠ [] := by
    rintro rfl
    cases hused []
  rw [List.length_append]
  have hpos := List.length_pos_iff.mpr hne
  omega

theorem rawWords_append (n : Nat) (used rest : Bytes) (h : used.length = n * 8) :
    rawWords n (used ++ rest) = rawWords n used := by
  induction n generalizing used with
  | zero => rfl
  | succ n ih =>
      have hlong : 8 ≤ used.length := by omega
      rw [rawWords, rawWords, List.take_append_of_le_length hlong, List.drop_append_of_le_length hlong]
      rw [ih (used.drop 8) (by rw [List.length_drop]; omega)]

theorem unpackFrom_append {bits : Nat} (hbits : bits ≤ kMaxPackedBits) (n : Nat) (used rest : Bytes)
    (h : used.length = packedBytes n bits) : unpackFrom bits n (used ++ rest) 0 0 = unpackFrom bits n used 0 0 := by
  have hall := unpackFrom_spec hbits n (used ++ rest) 0 0 (by norm_num) (by norm_num)
  have hused := unpackFrom_spec hbits n used 0 0 (by norm_num) (by norm_num)
  obtain ⟨r, hr⟩ := pow_packedBytes n bits
  have hstream : streamValue (used ++ rest) 0 0 = streamValue used 0 0 + (2 ^ bits) ^ n * (r * LittleEndian.value rest) := by
    unfold streamValue
    rw [LittleEndian.value_append, h, hr]
    ring
  rw [hstream, Digits.digits_add_mul (Nat.two_pow_pos bits), ← hused] at hall
  exact List.map_injective_iff.mpr (fun _ _ => UInt64.toNat_inj.mp) hall

/-- Packed words are read off their own bytes, as many as their count and width say. -/
theorem local_unpack (n : Nat) {bits : Nat} (hbits : bits ≤ kMaxPackedBits) : Local (fun p => unpack p n bits) := by
  unfold unpack
  by_cases hzero : bits = 0
  · simp only [hzero, if_true]
    exact local_pure _
  · simp only [hzero, if_false]
    exact local_take _ (fun p => unpackFrom bits n p 0 0) (fun used rest h => unpackFrom_append hbits n used rest h)

theorem local_readResiduals (n bits : Nat) : Local (fun p => readResiduals p n bits) := by
  unfold readResiduals
  by_cases hraw : bits = 64
  · simp only [hraw, if_true]
    exact local_take _ (rawWords n) (fun used rest h => rawWords_append n used rest h)
  · simp only [hraw, if_false]
    by_cases hwide : kMaxPackedBits < bits
    · simp only [hwide, if_true]
      exact local_fail
    · simp only [hwide, if_false]
      exact local_unpack n (not_lt.mp hwide)

/-- The blocks of a column are read off their own bytes, one after the other. -/
theorem local_decodeBlocks (scale : UInt64) (blocks remaining : Nat) (previous : Int64) :
    Local (decodeBlocks scale blocks remaining previous) := by
  induction blocks generalizing remaining previous with
  | zero => exact local_pure []
  | succ blocks ih =>
      show Local (fun p => decodeBlocks scale (blocks + 1) remaining previous p)
      simp only [decodeBlocks, Option.bind_eq_bind]
      refine local_getVarint.bind (fun packedMin => ?_)
      dsimp only
      refine local_item rfl (fun bits => ?_)
      dsimp only
      by_cases hwide : 64 < bits.toNat
      · simp only [hwide, if_true]
        exact local_fail
      · simp only [hwide, if_false]
        refine (local_readResiduals _ _).bind (fun residuals => ?_)
        dsimp only
        refine (ih _ _).bind (fun rest => ?_)
        exact local_pure (restoreValues scale (unzigzag packedMin) previous residuals ++ rest)

/-- **A column is read off its own bytes**: its count, then its blocks. -/
theorem local_readColumn : Local readColumn := by
  show Local (fun p => readColumn p)
  simp only [readColumn, Option.bind_eq_bind]
  refine local_getVarint.bind (fun count => ?_)
  by_cases hcount : count = 0
  · simp only [hcount, if_true]
    exact local_pure []
  · simp only [hcount, if_false]
    refine local_getVarint.bind (fun first => ?_)
    dsimp only
    refine local_getVarint.bind (fun scale => ?_)
    by_cases hscale : scale = 0
    · simp only [hscale, if_true]
      exact local_fail
    · simp only [hscale, if_false]
      exact (local_decodeBlocks _ _ _ _).bind (fun rest => local_pure (unzigzag first :: rest))

/-! ## Counts -/

theorem length_unpackFrom (bits n : Nat) (q : Bytes) (acc : UInt64) (held : Nat) :
    (unpackFrom bits n q acc held).length = n := by
  induction n generalizing q acc held with
  | zero => rfl
  | succ n ih => rw [unpackFrom, List.length_cons, ih]

theorem length_rawWords (n : Nat) (p : Bytes) : (rawWords n p).length = n := by
  induction n generalizing p with
  | zero => rfl
  | succ n ih => rw [rawWords, List.length_cons, ih]

/-- As many residuals as were asked for. -/
theorem length_readResiduals {p rest : Bytes} {n bits : Nat} {residuals : List UInt64}
    (h : readResiduals p n bits = some (residuals, rest)) : residuals.length = n := by
  unfold readResiduals unpack at h
  split_ifs at h
  · obtain ⟨rfl, rfl⟩ := Prod.mk.inj (Option.some.inj h)
    exact length_rawWords n p
  · obtain ⟨rfl, rfl⟩ := Prod.mk.inj (Option.some.inj h)
    exact List.length_replicate
  · obtain ⟨rfl, rfl⟩ := Prod.mk.inj (Option.some.inj h)
    exact length_unpackFrom _ n p 0 0

theorem length_restoreValues (scale : UInt64) (minDelta previous : Int64) (residuals : List UInt64) :
    (restoreValues scale minDelta previous residuals).length = residuals.length := by
  induction residuals generalizing previous with
  | nil => rfl
  | cons residual residuals ih => rw [restoreValues, List.length_cons, List.length_cons, ih]

/-- What one block is. -/
theorem decodeBlocks_succ {scale : UInt64} {blocks remaining : Nat} {previous : Int64} {p rest : Bytes}
    {values : List Int64} (h : decodeBlocks scale (blocks + 1) remaining previous p = some (values, rest)) :
    ∃ packedMin bits p₁ residuals p₂ values',
      getVarint p = some (packedMin, bits :: p₁) ∧
      readResiduals p₁ (min kCodecBlock remaining) bits.toNat = some (residuals, p₂) ∧
      decodeBlocks scale blocks (remaining - min kCodecBlock remaining)
        ((restoreValues scale (unzigzag packedMin) previous residuals).getLastD previous) p₂ = some (values', rest) ∧
      values = restoreValues scale (unzigzag packedMin) previous residuals ++ values' := by
  simp only [decodeBlocks, Option.bind_eq_bind] at h
  obtain ⟨⟨packedMin, p'⟩, hmin, h⟩ := Option.bind_eq_some_iff.mp h
  cases p' with
  | nil => cases h
  | cons bits p₁ =>
      dsimp only at h
      rw [Option.ite_none_left_eq_some] at h
      obtain ⟨_, h⟩ := h
      obtain ⟨⟨residuals, p₂⟩, hresiduals, h⟩ := Option.bind_eq_some_iff.mp h
      obtain ⟨⟨values', p₃⟩, hblocks, h⟩ := Option.bind_eq_some_iff.mp h
      obtain ⟨rfl, rfl⟩ := Prod.mk.inj (Option.some.inj h)
      exact ⟨packedMin, bits, p₁, residuals, p₂, values', hmin, hresiduals, hblocks, rfl⟩

/-- The blocks hold the values that were announced, and take two bytes for a block of them. -/
theorem decodeBlocks_count {scale : UInt64} {blocks remaining : Nat} {previous : Int64} {p rest : Bytes}
    {values : List Int64} (hblocks : blocks = blockCount remaining)
    (h : decodeBlocks scale blocks remaining previous p = some (values, rest)) :
    values.length = remaining ∧ remaining + 64 * rest.length ≤ 64 * p.length := by
  induction blocks generalizing remaining previous p values with
  | zero =>
      obtain ⟨rfl, rfl⟩ := Prod.mk.inj (Option.some.inj h)
      unfold blockCount kCodecBlock at hblocks
      refine ⟨?_, by omega⟩
      rw [List.length_nil]
      omega
  | succ blocks ih =>
      obtain ⟨packedMin, bits, p₁, residuals, p₂, values', hmin, hresiduals, hrest, rfl⟩ := decodeBlocks_succ h
      have hnext : blocks = blockCount (remaining - min kCodecBlock remaining) := by
        unfold blockCount kCodecBlock at hblocks ⊢
        omega
      obtain ⟨hlength, hcost⟩ := ih hnext hrest
      -- the minimum takes a byte and the width another, for 128 values at most
      have hvarint := length_lt_getVarint hmin
      have hblock := (local_readResiduals _ _).length_le hresiduals
      have hcount := length_readResiduals hresiduals
      have hn : min kCodecBlock remaining ≤ 128 := Nat.min_le_left _ _
      have hn' : min kCodecBlock remaining ≤ remaining := Nat.min_le_right _ _
      generalize min kCodecBlock remaining = n at *
      rw [List.length_cons] at hvarint
      constructor
      · rw [List.length_append, length_restoreValues, hcount, hlength]
        omega
      · omega

/-- A column has the values it announces, and at most 64 for a byte after the first value. -/
theorem readColumn_count {p rest : Bytes} {values : List Int64} (h : readColumn p = some (values, rest)) :
    values.length = peekColumnCount p ∧ rest.length < p.length ∧ values.length + 64 * rest.length ≤ 1 + 64 * p.length := by
  simp only [readColumn, Option.bind_eq_bind] at h
  obtain ⟨⟨count, p₁⟩, hcount, h⟩ := Option.bind_eq_some_iff.mp h
  have hpeek : peekColumnCount p = count.toNat := by
    rw [peekColumnCount, hcount]
  have hlt := length_lt_getVarint hcount
  dsimp only at h
  split at h
  case isTrue hzero =>
    obtain ⟨rfl, rfl⟩ := Prod.mk.inj (Option.some.inj h)
    refine ⟨?_, hlt, by rw [List.length_nil]; omega⟩
    rw [hpeek, hzero]
    rfl
  case isFalse hpos =>
    obtain ⟨⟨first, p₂⟩, hfirst, h⟩ := Option.bind_eq_some_iff.mp h
    obtain ⟨⟨scale, p₃⟩, hscale, h⟩ := Option.bind_eq_some_iff.mp h
    dsimp only at h
    rw [Option.ite_none_left_eq_some] at h
    obtain ⟨⟨rest', p₄⟩, hblocks, h⟩ := Option.bind_eq_some_iff.mp h.2
    obtain ⟨rfl, rfl⟩ := Prod.mk.inj (Option.some.inj h)
    obtain ⟨hlength, hcost⟩ := decodeBlocks_count rfl hblocks
    have hlt₂ := length_lt_getVarint hfirst
    have hlt₃ := length_lt_getVarint hscale
    have hle := (local_decodeBlocks _ _ _ _).length_le hblocks
    have hone : count.toNat ≠ 0 := fun hz => hpos (UInt64.toNat_inj.mp hz)
    dsimp only at hcost hlength hlt₃ hle ⊢
    rw [hpeek, List.length_cons, hlength]
    omega

/-! ## Main result -/

theorem decodeColumn_eq_some {data : Bytes} {r : Nat} {values : List Int64} :
    decodeColumn data = some (r, values) ↔
      ∃ rest, readColumn data = some (values, rest) ∧ r = data.length - rest.length := by
  unfold decodeColumn
  rw [Option.bind_eq_bind, Option.bind_eq_some_iff]
  constructor
  · rintro ⟨⟨values', rest⟩, hread, h⟩
    obtain ⟨rfl, rfl⟩ := Prod.mk.inj (Option.some.inj h)
    exact ⟨rest, hread, rfl⟩
  · rintro ⟨rest, hread, rfl⟩
    exact ⟨(values, rest), hread, rfl⟩

/-- **A truncated column is refused**, and a column is read off its own bytes alone. -/
theorem truncated_columns_refused :
    (∀ values : List Int64, values.length < 2 ^ 64 → ∀ b, b <+: encodeColumn values → b ≠ encodeColumn values →
      decodeColumn b = none) ∧
    ∀ data r values, decodeColumn data = some (r, values) →
      0 < r ∧ r ≤ data.length ∧ values.length = peekColumnCount data ∧
      ∀ data', data'.take r = data.take r → decodeColumn data' = some (r, values) := by
  constructor
  · intro values hsize b hprefix hne
    have hread := readColumn_encodeColumn hsize []
    unfold decodeColumn
    rw [local_readColumn.truncated hread hprefix hne]
    rfl
  · intro data r values h
    obtain ⟨rest, hread, rfl⟩ := decodeColumn_eq_some.mp h
    obtain ⟨hcount, hlt, _⟩ := readColumn_count hread
    refine ⟨by omega, Nat.sub_le _ _, hcount, fun data' hsame => ?_⟩
    have hread' := local_readColumn.of_take hread hsame
    have hlength := congrArg List.length hsame
    rw [List.length_take, List.length_take] at hlength
    refine decodeColumn_eq_some.mpr ⟨_, hread', ?_⟩
    rw [List.length_drop]
    omega

/-- Half of the column of two values. -/
theorem half_a_column_refused : decodeColumn [2, 14] = none :=
  truncated_columns_refused.1 [7, 8] (by decide) [2, 14] (by decide +kernel) (by decide +kernel)

/-! ## The output vector -/

/-- A call returns, and asks its output for no more values than the input can hold. -/
structure ReportsMalformed (room : Nat → Bool) (data : Bytes) : Prop where
  returns : ∃ r, (decodeColumnInto room data).result = .ok r
  lengths : ∀ n ∈ (decodeColumnInto room data).lengths, n ≤ 1 + 64 * data.length

theorem resize_eq_ok {room : Nat → Bool} {n : Nat} :
    resize room n = .ok () ↔ n ≤ kMaxSize ∧ room n = true := by
  unfold resize
  split_ifs <;> simp_all

theorem reportsMalformed_iff {room : Nat → Bool} {data : Bytes}
    (hroom : ∀ n ≤ 1 + 64 * data.length, room n = true) :
    ReportsMalformed room data ↔ peekColumnCount data ≤ 1 + 64 * data.length ∧ peekColumnCount data ≤ kMaxSize := by
  cases hcount : getVarint data with
  | none =>
      have hcall : decodeColumnInto room data = ⟨[], .ok none⟩ := by
        rw [decodeColumnInto, hcount]
      have hpeek : peekColumnCount data = 0 := by
        rw [peekColumnCount, hcount]
      rw [hpeek]
      refine ⟨fun _ => ⟨Nat.zero_le _, Nat.zero_le _⟩, fun _ => ⟨⟨none, by rw [hcall]⟩, ?_⟩⟩
      rw [hcall]
      exact nofun
  | some read =>
      obtain ⟨count, rest⟩ := read
      have hcall : decodeColumnInto room data =
          ⟨[0, count.toNat], (resize room count.toNat).bind (fun _ => .ok (decodeColumn data))⟩ := by
        rw [decodeColumnInto, hcount]
        rfl
      have hpeek : peekColumnCount data = count.toNat := by
        rw [peekColumnCount, hcount]
      rw [hpeek]
      constructor
      · rintro ⟨⟨r, hreturns⟩, hlengths⟩
        rw [hcall] at hreturns hlengths
        refine ⟨hlengths _ (by simp), ?_⟩
        cases hresize : resize room count.toNat with
        | error e =>
            dsimp only at hreturns
            rw [hresize] at hreturns
            cases hreturns
        | ok u => exact (resize_eq_ok.mp hresize).1
      · rintro ⟨hle, hmax⟩
        refine ⟨⟨decodeColumn data, ?_⟩, ?_⟩
        · rw [hcall]
          dsimp only
          rw [resize_eq_ok.mpr ⟨hmax, hroom _ hle⟩]
          rfl
        · rw [hcall]
          intro n hn
          rcases List.mem_pair.mp hn with rfl | rfl
          · exact Nat.zero_le _
          · exact hle

/-- **A malformed column is reported**, not thrown, if and only if the count it starts with is one that an input of its
size can hold and a vector can have. The memory for what the input can hold is there. -/
theorem malformed_columns_reported_iff {room : Nat → Bool} {data : Bytes}
    (hroom : ∀ n ≤ 1 + 64 * data.length, room n = true) :
    (ReportsMalformed room data ↔ peekColumnCount data ≤ 1 + 64 * data.length ∧ peekColumnCount data ≤ kMaxSize) ∧
      ∀ r values, decodeColumn data = some (r, values) → values.length ≤ 1 + 64 * data.length := by
  refine ⟨reportsMalformed_iff hroom, fun r values h => ?_⟩
  obtain ⟨rest, hread, _⟩ := decodeColumn_eq_some.mp h
  have hcount := (readColumn_count hread).2.2
  omega

/-- Three values, cut after the first. -/
theorem malformed_columns_reported_iff_cut : ReportsMalformed (fun n => n ≤ 2 ^ 40) [3, 14] :=
  (malformed_columns_reported_iff (fun n hn => decide_eq_true (le_trans hn (by decide)))).1.mpr (by decide +kernel)

/-- A count of `2 ^ 64 - 1`, and nothing else. -/
def hugeCount : Bytes := [0xFF, 0xFF, 0xFF, 0xFF, 0xFF, 0xFF, 0xFF, 0xFF, 0xFF, 0x01]

theorem huge_count_is_thrown :
    (decodeColumnInto (fun _ => true) hugeCount).result = .error .lengthError ∧
      ¬ ReportsMalformed (fun _ => true) hugeCount := by
  have hthrown : (decodeColumnInto (fun _ => true) hugeCount).result = .error .lengthError := by rfl
  refine ⟨hthrown, fun h => ?_⟩
  obtain ⟨r, hreturns⟩ := h.returns
  rw [hthrown] at hreturns
  cases hreturns

end Volforge
