import Volforge.Store.ReferenceReader
import Volforge.Store.Correctness.Codec

/-!
# `Store.Correctness.Reference` — the reference decoder and the engine's

The two decoders walk the same bytes: where the reference decoder reads an unbounded integer, the engine reads it
modulo `2 ^ 64` and stops at the same place. What is read differs only where a varint does not fit 64 bits.

## Contents
- **Primitives.** Varints, zigzag, bit packing and raw words of the two readers.
- **Blocks.** `blockMinima` walks the blocks without decoding them; both decoders accept what it accepts.
- **Main result.** `reference_agrees_iff`, and a count of `2 ^ 64`.
-/

namespace Volforge.ReferenceReader

/-! ## Primitives -/

theorem ofNat_payload (byte : UInt8) {shift : Nat} (hshift : shift < 64) :
    UInt64.ofNat ((byte &&& 0x7F).toNat <<< shift) = (byte &&& 0x7F).toUInt64 <<< UInt64.ofNat shift := by
  apply UInt64.toNat_inj.mp
  have hcount : (UInt64.ofNat shift).toNat % 64 = shift := by
    rw [UInt64.toNat_ofNat']
    omega
  rw [UInt64.toNat_shiftLeft, hcount, UInt8.toNat_toUInt64, UInt64.toNat_ofNat']

theorem getVarintFrom_eq (buf : Bytes) {shift : Nat} (value : Nat) (hshift : shift < 64) :
    Volforge.getVarintFrom shift (UInt64.ofNat value) buf =
      (readVarintFrom shift value buf).map (fun x => (UInt64.ofNat x.1, x.2)) := by
  induction buf generalizing shift value with
  | nil => rfl
  | cons byte buf ih =>
      have hvalue : UInt64.ofNat value ||| ((byte &&& 0x7F).toUInt64 <<< UInt64.ofNat shift) =
          UInt64.ofNat (value ||| ((byte &&& 0x7F).toNat <<< shift)) := by
        rw [UInt64.ofNat_or, ofNat_payload byte hshift]
      unfold getVarintFrom readVarintFrom
      dsimp only
      rw [hvalue]
      split_ifs with hlast hlong
      · rfl
      · rfl
      · exact ih _ (by omega)

/-- The engine reads the same varint modulo `2 ^ 64`, and stops at the same byte. -/
theorem getVarint_eq (buf : Bytes) :
    getVarint buf = (readVarint buf).map (fun x => (UInt64.ofNat x.1, x.2)) := getVarintFrom_eq buf 0 (by norm_num)

theorem unzigzag_even (k : Nat) : unzigzag (2 * k) = k := by
  have hhalf : (2 * k) >>> 1 = k := by
    rw [Nat.shiftRight_eq_div_pow]
    omega
  have hlow : (2 * k) &&& 1 = 0 := by
    rw [Nat.and_one_is_mod]
    omega
  unfold unzigzag
  rw [hhalf, hlow]
  exact congrArg Int.ofNat (Nat.xor_zero k)

theorem unzigzag_odd (k : Nat) : unzigzag (2 * k + 1) = -(k : Int) - 1 := by
  have hhalf : (2 * k + 1) >>> 1 = k := by
    rw [Nat.shiftRight_eq_div_pow]
    omega
  have hlow : (2 * k + 1) &&& 1 = 1 := by
    rw [Nat.and_one_is_mod]
    omega
  unfold unzigzag
  rw [hhalf, hlow]
  show Int.negSucc (k ^^^ 0) = _
  rw [Nat.xor_zero]
  omega

theorem toInt64_ofNat (k : Nat) : (UInt64.ofNat k).toInt64 = Int64.ofInt k := by
  apply Int64.toBitVec_inj.mp
  exact (BitVec.ofInt_natCast 64 k).symm

/-- Below `2 ^ 64` the two agree on zigzag. -/
theorem engine_unzigzag {w : Nat} (hw : w < 2 ^ 64) :
    Volforge.unzigzag (UInt64.ofNat w) = Int64.ofInt (unzigzag w) := by
  have hhalf : UInt64.ofNat w >>> 1 = UInt64.ofNat (w / 2) := by
    apply UInt64.toNat_inj.mp
    rw [UInt64.toNat_shiftRight, UInt64.toNat_ofNat', UInt64.toNat_ofNat', Nat.mod_eq_of_lt hw]
    have hshift : w >>> ((1 : UInt64).toNat % 64) = w / 2 := Nat.shiftRight_eq_div_pow w 1
    omega
  have hlow : UInt64.ofNat w &&& 1 = UInt64.ofNat (w % 2) := by
    apply UInt64.toNat_inj.mp
    rw [UInt64.toNat_and, UInt64.toNat_ofNat', UInt64.toNat_ofNat', Nat.mod_eq_of_lt hw, Nat.mod_eq_of_lt (by omega)]
    exact Nat.and_one_is_mod w
  unfold Volforge.unzigzag
  rw [hhalf, hlow]
  rcases Nat.mod_two_eq_zero_or_one w with heven | hodd
  · obtain ⟨k, rfl⟩ : ∃ k, w = 2 * k := ⟨w / 2, by omega⟩
    rw [heven, unzigzag_even, Nat.mul_div_cancel_left _ (by norm_num)]
    show (UInt64.ofNat k ^^^ 0).toInt64 = _
    rw [UInt64.xor_zero, toInt64_ofNat]
  · obtain ⟨k, rfl⟩ : ∃ k, w = 2 * k + 1 := ⟨w / 2, by omega⟩
    rw [hodd, unzigzag_odd, show (2 * k + 1) / 2 = k by omega]
    show (UInt64.ofNat k ^^^ -1).toInt64 = _
    rw [UInt64.xor_neg_one, UInt64.toInt64_not, Int64.not_eq_neg_sub, toInt64_ofNat, Int64.ofInt_sub, Int64.ofInt_neg]
    rfl

theorem unzigzag_fits_iff (v : Nat) : (-2 ^ 63 ≤ unzigzag v ∧ unzigzag v < 2 ^ 63) ↔ v < 2 ^ 64 := by
  rcases Nat.mod_two_eq_zero_or_one v with heven | hodd
  · obtain ⟨k, rfl⟩ : ∃ k, v = 2 * k := ⟨v / 2, by omega⟩
    rw [unzigzag_even]
    omega
  · obtain ⟨k, rfl⟩ : ∃ k, v = 2 * k + 1 := ⟨v / 2, by omega⟩
    rw [unzigzag_odd]
    omega

/-- The two decoders read the same number exactly when the varint fits 64 bits. -/
theorem unzigzag_eq_iff (v : Nat) : unzigzag v = (Volforge.unzigzag (UInt64.ofNat v)).toInt ↔ v < 2 ^ 64 := by
  constructor
  · intro h
    rw [← unzigzag_fits_iff, h]
    exact ⟨Int64.le_toInt _, Int64.toInt_lt _⟩
  · intro hv
    obtain ⟨hlow, hhigh⟩ := (unzigzag_fits_iff v).mpr hv
    rw [engine_unzigzag hv, Int64.toInt_ofInt_of_le hlow hhigh]

/-- The bits of a varint above the lowest 64. -/
theorem unzigzag_sub (v : Nat) : unzigzag v - unzigzag (v % 2 ^ 64) = 2 ^ 63 * (v / 2 ^ 64 : Nat) ∨
    unzigzag v - unzigzag (v % 2 ^ 64) = -(2 ^ 63 * (v / 2 ^ 64 : Nat)) := by
  rcases Nat.mod_two_eq_zero_or_one v with heven | hodd
  · left
    have hv : v = 2 * (v / 2) := by omega
    have hw : v % 2 ^ 64 = 2 * (v % 2 ^ 64 / 2) := by omega
    rw [hw]
    conv_lhs => rw [hv]
    rw [unzigzag_even, unzigzag_even]
    omega
  · right
    have hv : v = 2 * (v / 2) + 1 := by omega
    have hw : v % 2 ^ 64 = 2 * (v % 2 ^ 64 / 2) + 1 := by omega
    rw [hw]
    conv_lhs => rw [hv]
    rw [unzigzag_odd, unzigzag_odd]
    omega

/-- A block's minimum is used alike: its bit 64 is clear, or the scale is even and shifts it out. -/
def Harmless (scale packedMin : Nat) : Prop := 2 ∣ packedMin / 2 ^ 64 ∨ 2 ∣ scale

theorem int64_ofInt_eq_iff {a b : Int} : Int64.ofInt a = Int64.ofInt b ↔ (2 : Int) ^ 64 ∣ a - b := by
  rw [← Int64.toInt_inj, Int64.toInt_ofInt, Int64.toInt_ofInt]
  show a.bmod (2 ^ 64 : Nat) = b.bmod (2 ^ 64 : Nat) ↔ _
  rw [Int.bmod_eq_bmod_iff_bmod_sub_eq_zero, ← Int.dvd_iff_bmod_eq_zero]
  rfl

theorem harmless_iff (scale packedMin : Nat) : Harmless scale packedMin ↔
    Int64.ofInt (unzigzag packedMin * scale) =
      Int64.ofInt (unzigzag (packedMin % 2 ^ 64) * scale) := by
  have hdvd : ((2 : Int) ^ 64 ∣ 2 ^ 63 * (packedMin / 2 ^ 64 : Nat) * scale) ↔ Harmless scale packedMin := by
    rw [show (2 : Int) ^ 64 = 2 ^ 63 * 2 by norm_num, mul_assoc, Int.mul_dvd_mul_iff_left (by norm_num),
      ← Nat.cast_mul, ← Nat.cast_two, Int.natCast_dvd_natCast, Nat.prime_two.dvd_mul]
    rfl
  rw [int64_ofInt_eq_iff, ← Int.sub_mul, ← hdvd]
  rcases unzigzag_sub packedMin with hsub | hsub
  · rw [hsub]
  · rw [hsub, Int.neg_mul, Int.dvd_neg]

/-! ### Residuals -/

theorem fill_eq (bits : Nat) (buf : Bytes) (acc held : Nat) (hacc : acc < 2 ^ held) :
    (held + 8 * buf.length < bits ∧ fill bits buf acc held = none) ∨
    (bits ≤ held + 8 * buf.length ∧ ∃ acc', fill bits buf acc held =
        some (buf.drop ((bits - held + 7) / 8), acc', held + 8 * ((bits - held + 7) / 8)) ∧
      acc' < 2 ^ (held + 8 * ((bits - held + 7) / 8)) ∧
      acc' + 2 ^ (held + 8 * ((bits - held + 7) / 8)) * LittleEndian.value (buf.drop ((bits - held + 7) / 8)) =
        acc + 2 ^ held * LittleEndian.value buf) := by
  induction buf generalizing acc held with
  | nil =>
      unfold fill
      by_cases hlt : held < bits
      · left
        exact ⟨by simpa using hlt, if_pos hlt⟩
      · right
        have hread : (bits - held + 7) / 8 = 0 := by omega
        rw [hread]
        exact ⟨by simpa using hlt, acc, if_neg hlt, by simpa using hacc, by simp⟩
  | cons b buf ih =>
      unfold fill
      by_cases hlt : held < bits
      · rw [if_pos hlt]
        have hor : acc ||| (b.toNat <<< held) = acc + 2 ^ held * b.toNat := Digits.or_shiftLeft hacc _
        have hpow : 2 ^ (held + 8) = 2 ^ held * 256 := by rw [Nat.pow_add]
        have hacc' : acc ||| (b.toNat <<< held) < 2 ^ (held + 8) := by
          rw [hor]
          exact Digits.add_mul_lt hacc b.toNat_lt
        have hread : (bits - held + 7) / 8 = (bits - (held + 8) + 7) / 8 + 1 := by omega
        have hheld : held + 8 * ((bits - held + 7) / 8) = held + 8 + 8 * ((bits - (held + 8) + 7) / 8) := by omega
        rw [List.length_cons, hheld, hread, List.drop_succ_cons]
        rcases ih _ (held + 8) hacc' with ⟨hshort, hfill⟩ | ⟨hlong, acc', hfill, hlow, hvalue⟩
        · left
          exact ⟨by omega, hfill⟩
        · right
          refine ⟨by omega, acc', hfill, hlow, ?_⟩
          rw [hvalue, hor, hpow, LittleEndian.value_cons]
          ring
      · right
        have hread : (bits - held + 7) / 8 = 0 := by omega
        rw [hread]
        exact ⟨by omega, acc, if_neg hlt, by simpa using hacc, by simp⟩

theorem unpackBitsFrom_eq (bits count : Nat) (buf : Bytes) (acc held : Nat) (hacc : acc < 2 ^ held) :
    unpackBitsFrom bits count buf acc held =
      if held + 8 * buf.length < count * bits then none
      else some (Digits.digits (2 ^ bits) count (acc + 2 ^ held * LittleEndian.value buf),
        buf.drop ((count * bits - held + 7) / 8)) := by
  induction count generalizing buf acc held with
  | zero => simp [unpackBitsFrom, Digits.digits]
  | succ count ih =>
      unfold unpackBitsFrom
      have hsucc : (count + 1) * bits = count * bits + bits := Nat.succ_mul ..
      rw [hsucc]
      rcases fill_eq bits buf acc held hacc with ⟨hshort, hfill⟩ | ⟨hlong, acc', hfill, hlow, hvalue⟩
      · rw [hfill, if_pos (by omega)]
        rfl
      · -- the low `bits` of what is held are the next digit, the others are carried over
        rw [hfill]
        set read := (bits - held + 7) / 8 with hread
        have hmask : (1 <<< bits) - 1 = 2 ^ bits - 1 := by rw [Nat.one_shiftLeft]
        have hsplit : 2 ^ (held + 8 * read) = 2 ^ bits * 2 ^ (held + 8 * read - bits) := by
          rw [← Nat.pow_add]
          congr 1
          omega
        have hacc' : acc' >>> bits < 2 ^ (held + 8 * read - bits) := by
          rw [Nat.shiftRight_eq_div_pow]
          exact Nat.div_lt_of_lt_mul (by rw [← hsplit]; exact hlow)
        have hlen : (buf.drop read).length = buf.length - read := List.length_drop ..
        simp only [Option.bind_eq_bind, Option.bind_some]
        rw [ih (buf.drop read) _ _ hacc', hlen]
        by_cases hends : held + 8 * buf.length < count * bits + bits
        · rw [if_pos (by omega), if_pos hends]
          rfl
        · rw [if_neg (by omega), if_neg hends, List.drop_drop]
          have hstream := hvalue
          rw [hsplit, Nat.mul_assoc] at hstream
          have hdigit : acc' &&& ((1 <<< bits) - 1) = (acc + 2 ^ held * LittleEndian.value buf) % 2 ^ bits := by
            rw [hmask, Nat.and_two_pow_sub_one_eq_mod, ← hstream, Nat.add_mul_mod_self_left]
          have hnext : acc' >>> bits + 2 ^ (held + 8 * read - bits) * LittleEndian.value (buf.drop read) =
              (acc + 2 ^ held * LittleEndian.value buf) / 2 ^ bits := by
            rw [Nat.shiftRight_eq_div_pow, ← hstream, Nat.add_mul_div_left _ _ (Nat.two_pow_pos _)]
          have hdrop : read + (count * bits - (held + 8 * read - bits) + 7) / 8 =
              (count * bits + bits - held + 7) / 8 := by
            omega
          rw [hdigit, hnext, hdrop]
          rfl

theorem map_ofNat_toNat (ws : List UInt64) : (ws.map UInt64.toNat).map UInt64.ofNat = ws := by
  rw [List.map_map]
  exact List.map_id'' (fun _ => UInt64.ofNat_toNat) ws

/-- Both unpack the same values from the same bytes. -/
theorem unpack_eq {bits : Nat} (hbits : bits ≤ kMaxPackedBits) (buf : Bytes) (n : Nat) :
    unpack buf n bits = (unpackBits buf n bits).map (fun x => (x.1.map UInt64.ofNat, x.2)) := by
  unfold unpack unpackBits
  by_cases hzero : bits = 0
  · rw [if_pos hzero, if_pos hzero]
    simp
  · rw [if_neg hzero, if_neg hzero, unpackBitsFrom_eq _ _ _ _ _ (by norm_num)]
    unfold packedBytes
    by_cases hshort : 0 + 8 * buf.length < n * bits
    · rw [if_pos hshort, if_pos (by omega)]
      rfl
    · rw [if_neg hshort, if_neg (by omega)]
      have hdigits := unpackFrom_spec hbits n buf 0 0 (by norm_num) (by norm_num)
      have hstream : streamValue buf 0 0 = 0 + 2 ^ 0 * LittleEndian.value buf := rfl
      rw [hstream] at hdigits
      rw [← hdigits, Option.map_some, map_ofNat_toNat]
      rfl

theorem rawWords_eq (n : Nat) (buf : Bytes) : rawWords n buf = (words n buf).map UInt64.ofNat := by
  induction n generalizing buf with
  | zero => rfl
  | succ n ih =>
      have hword : rawWordFrom 0 (buf.take 8) = UInt64.ofNat (LittleEndian.value (buf.take 8)) := by
        apply UInt64.toNat_inj.mp
        have hlen : (buf.take 8).length ≤ 8 := List.length_take_le ..
        have hlt := LittleEndian.value_lt (buf.take 8)
        have hpow : 256 ^ (buf.take 8).length ≤ 256 ^ 8 := Nat.pow_le_pow_right (by norm_num) hlen
        rw [toNat_rawWordFrom 0 _ (by omega), UInt64.toNat_ofNat', Nat.mod_eq_of_lt (by omega)]
        omega
      rw [rawWords, words, List.map_cons, hword, ih]

/-- Both read the same residuals from the same bytes. -/
theorem readResiduals_eq (buf : Bytes) (n bits : Nat) : Volforge.readResiduals buf n bits =
    (readResiduals buf n bits).map (fun x => (x.1.map UInt64.ofNat, x.2)) := by
  have hmax : kMaxPackedBits = 56 := rfl
  unfold Volforge.readResiduals readResiduals
  rw [hmax]
  split_ifs with hraw hshort hwide
  · rfl
  · rw [rawWords_eq]
    rfl
  · rfl
  · exact unpack_eq (Nat.le_of_not_lt hwide) buf n

/-- Passes over the residuals of a block. -/
def skipResiduals (buf : Bytes) (n bits : Nat) : Option Bytes :=
  if bits = 64 then if buf.length < n * 8 then none else some (buf.drop (n * 8))
  else if 56 < bits then none
  else if buf.length < packedBytes n bits then none
  else some (buf.drop (packedBytes n bits))

theorem length_words (n : Nat) (buf : Bytes) : (words n buf).length = n := by
  induction n generalizing buf with
  | zero => rfl
  | succ n ih => rw [words, List.length_cons, ih]

/-- There are residuals exactly where they can be passed over, and they are as many as asked for. -/
theorem readResiduals_skips (buf : Bytes) (n bits : Nat) :
    (readResiduals buf n bits = none ∧ skipResiduals buf n bits = none) ∨
    ∃ residuals rest, readResiduals buf n bits = some (residuals, rest) ∧
      skipResiduals buf n bits = some rest ∧ residuals.length = n := by
  unfold readResiduals skipResiduals
  split_ifs with hraw hlen hwide hlen
  · exact .inl ⟨rfl, rfl⟩
  · exact .inr ⟨_, _, rfl, rfl, length_words n buf⟩
  · exact .inl ⟨rfl, rfl⟩
  · left
    unfold packedBytes at hlen
    have hpos : bits ≠ 0 := by
      rintro rfl
      omega
    unfold unpackBits
    rw [if_neg hpos, unpackBitsFrom_eq _ _ _ _ _ (by norm_num), if_pos (by omega)]
    exact ⟨rfl, rfl⟩
  · right
    unfold unpackBits packedBytes
    unfold packedBytes at hlen
    by_cases hzero : bits = 0
    · subst hzero
      rw [if_pos rfl]
      exact ⟨_, _, rfl, by simp, List.length_replicate⟩
    · rw [if_neg hzero, unpackBitsFrom_eq _ _ _ _ _ (by norm_num), if_neg (by omega)]
      exact ⟨_, _, rfl, rfl, Digits.length_digits ..⟩

/-! ### Values -/

/-- The signed value of what the reference decoder carries. -/
theorem signed_emod (y : Int) :
    (if (y % 2 ^ 64) >>> (63 : Nat) ≠ 0 then y % 2 ^ 64 - 2 ^ 64 else y % 2 ^ 64) = (Int64.ofInt y).toInt := by
  have hshift : (y % 2 ^ 64) >>> (63 : Nat) = y % 2 ^ 64 / 2 ^ 63 := Int.shiftRight_eq_div_pow _ _
  rw [hshift, Int64.toInt_ofInt]
  show _ = Int.bmod y (2 ^ 64)
  rw [Int.bmod_def]
  push_cast
  split_ifs <;> omega

theorem ofInt_emod (y : Int) : Int64.ofInt (y % 2 ^ 64) = Int64.ofInt y := by
  rw [int64_ofInt_eq_iff]
  exact ⟨-(y / 2 ^ 64), by omega⟩

/-- One value of the engine, in integers. -/
theorem engine_delta (previous : Int) (minDelta : Int) (scale r : Nat) :
    Int64.ofInt previous + (if UInt64.ofNat scale = 1
        then (UInt64.ofNat r + (Int64.ofInt minDelta).toUInt64).toInt64
        else ((UInt64.ofNat r + (Int64.ofInt minDelta).toUInt64).toInt64.toUInt64 * UInt64.ofNat scale).toInt64) =
      Int64.ofInt (previous + ((r : Int) + minDelta) * scale) := by
  have hsum : (UInt64.ofNat r + (Int64.ofInt minDelta).toUInt64).toInt64 = Int64.ofInt ((r : Int) + minDelta) := by
    rw [UInt64.toInt64_add, toInt64_ofNat, Int64.toInt64_toUInt64, Int64.ofInt_add]
  rw [hsum, Int64.ofInt_add previous]
  congr 1
  split_ifs with hone
  · -- a scale of one modulo 2 ^ 64 multiplies by one
    have hscale : Int64.ofInt (scale : Int) = 1 := by rw [← toInt64_ofNat, hone]; rfl
    rw [Int64.ofInt_mul, hscale, Int64.mul_one]
  · rw [UInt64.toInt64_mul, toInt64_ofNat, Int64.toInt64_toUInt64, Int64.ofInt_mul]

/-- **The values of a block** are the engine's, for the minimum the reference decoder read. -/
theorem restoreValues_eq (scale : Nat) (minDelta : Int) (previous : Int) (residuals : List Nat) :
    restoreValues scale minDelta previous residuals =
      (Volforge.restoreValues (UInt64.ofNat scale) (Int64.ofInt minDelta) (Int64.ofInt previous)
        (residuals.map UInt64.ofNat)).map Int64.toInt := by
  induction residuals generalizing previous with
  | nil => rfl
  | cons r residuals ih =>
      rw [List.map_cons, restoreValues, Volforge.restoreValues]
      rw [engine_delta, List.map_cons, signed_emod, ih, ofInt_emod]

theorem length_restoreValues (scale : Nat) (minDelta : Int) (previous : Int) (residuals : List Nat) :
    (restoreValues scale minDelta previous residuals).length = residuals.length := by
  induction residuals generalizing previous with
  | nil => rfl
  | cons r residuals ih => rw [restoreValues, List.length_cons, ih, List.length_cons]

/-- Two minima give the same values exactly when the scale maps them to the same number. -/
theorem restoreValues_inj {scale : Nat} {a b : Int} {previous : Int} {residuals : List Nat} (hne : residuals ≠ []) :
    restoreValues scale a previous residuals = restoreValues scale b previous residuals ↔
      Int64.ofInt (a * scale) = Int64.ofInt (b * scale) := by
  have hstep : ∀ previous r : Int, (previous + (r + a) * scale) - (previous + (r + b) * scale) =
      a * scale - b * scale := by
    intro previous r
    ring
  constructor
  · intro h
    obtain ⟨r, residuals, rfl⟩ := List.exists_cons_of_ne_nil hne
    rw [restoreValues, restoreValues, List.cons_eq_cons, signed_emod, signed_emod, Int64.toInt_inj,
      int64_ofInt_eq_iff, hstep] at h
    exact int64_ofInt_eq_iff.mpr h.1
  · intro h
    rw [int64_ofInt_eq_iff] at h
    have hcarried : ∀ previous r : Int,
        (previous + (r + a) * scale) % 2 ^ 64 = (previous + (r + b) * scale) % 2 ^ 64 := by
      intro previous r
      refine Int.emod_eq_emod_iff_emod_sub_eq_zero.mpr (Int.emod_eq_zero_of_dvd ?_)
      rw [hstep]
      exact h
    clear hne
    induction residuals generalizing previous with
    | nil => rfl
    | cons r residuals ih =>
        rw [restoreValues, restoreValues]
        rw [hcarried, ih]

/-- The values of a block are the engine's exactly when its minimum is harmless. -/
theorem restoreValues_eq_engine_iff {scale packedMin : Nat} {previous : Int} {residuals : List Nat}
    (hne : residuals ≠ []) :
    restoreValues scale (unzigzag packedMin) previous residuals =
      (Volforge.restoreValues (UInt64.ofNat scale) (Volforge.unzigzag (UInt64.ofNat packedMin)) (Int64.ofInt previous)
        (residuals.map UInt64.ofNat)).map Int64.toInt ↔ Harmless scale packedMin := by
  have hlow : UInt64.ofNat packedMin = UInt64.ofNat (packedMin % 2 ^ 64) := by
    apply UInt64.toNat_inj.mp
    rw [UInt64.toNat_ofNat', UInt64.toNat_ofNat', Nat.mod_mod]
  rw [hlow, engine_unzigzag (Nat.mod_lt _ (by norm_num)), ← restoreValues_eq, restoreValues_inj hne, harmless_iff]

/-! ## Blocks -/

/-- Walks the blocks without decoding them: their minima, and what is left of the input. -/
def blockMinima : Nat → Nat → Bytes → Option (List Nat × Bytes)
  | 0, _, buf => some ([], buf)
  | blocks + 1, remaining, buf => do
      let (packedMin, buf) ← readVarint buf
      match buf with
      | [] => none
      | bits :: buf => do
          let buf ← skipResiduals buf (min BLOCK remaining) bits.toNat
          let (minima, buf) ← blockMinima blocks (remaining - min BLOCK remaining) buf
          return (packedMin :: minima, buf)

/-- Both decoders accept the blocks and leave the same input; from one value on they read the same values exactly when
    the minima are harmless. -/
structure BothRead (scale blocks remaining : Nat) (previous : Int) (start : Int64) (buf : Bytes)
    (minima : List Nat) (rest : Bytes) (vs : List Int) (ws : List Int64) : Prop where
  walks : blockMinima blocks remaining buf = some (minima, rest)
  reference : decodeBlocks scale blocks remaining previous buf = some (vs, rest)
  engine : Volforge.decodeBlocks (UInt64.ofNat scale) blocks remaining start buf = some (ws, rest)
  length_reference : vs.length = remaining
  length_engine : ws.length = remaining
  same : start = Int64.ofInt previous → (vs = ws.map Int64.toInt ↔ ∀ m ∈ minima, Harmless scale m)

theorem length_engine_values (scale : UInt64) (minDelta previous : Int64) (residuals : List UInt64) :
    (Volforge.restoreValues scale minDelta previous residuals).length = residuals.length := by
  induction residuals generalizing previous with
  | nil => rfl
  | cons r residuals ih => rw [Volforge.restoreValues, List.length_cons, ih, List.length_cons]

theorem getLastD_map_toInt {ws : List Int64} (hne : ws ≠ []) (start : Int64) (previous : Int) :
    ws.getLastD start = Int64.ofInt ((ws.map Int64.toInt).getLastD previous) := by
  rcases List.eq_nil_or_concat ws with rfl | ⟨ws, w, rfl⟩
  · exact absurd rfl hne
  · simp

theorem not_wide_of_residuals {buf rest : Bytes} {n bits : Nat} {residuals : List Nat}
    (h : readResiduals buf n bits = some (residuals, rest)) : ¬ 64 < bits := by
  intro hwide
  unfold readResiduals at h
  rw [if_neg (by omega), if_pos (by omega)] at h
  cases h

/-- **The blocks**: all three walks stop at the same place, or all three fail. -/
theorem decodeBlocks_alike (scale : Nat) (blocks remaining : Nat) (previous : Int) (start : Int64) (buf : Bytes)
    (hcount : blocks = blockCount remaining) :
    (blockMinima blocks remaining buf = none ∧ decodeBlocks scale blocks remaining previous buf = none ∧
      Volforge.decodeBlocks (UInt64.ofNat scale) blocks remaining start buf = none) ∨
    ∃ minima rest vs ws, BothRead scale blocks remaining previous start buf minima rest vs ws := by
  induction blocks generalizing remaining previous start buf with
  | zero =>
      have hzero : remaining = 0 := by
        unfold blockCount kCodecBlock at hcount
        omega
      subst hzero
      exact .inr ⟨[], buf, [], [], rfl, rfl, rfl, rfl, rfl, fun _ => by simp⟩
  | succ blocks ih =>
      have hblock : kCodecBlock = BLOCK := rfl
      set n := min BLOCK remaining with hn
      have hpos : 0 < n ∧ n ≤ remaining ∧ blocks = blockCount (remaining - n) := by
        unfold blockCount kCodecBlock at hcount ⊢
        unfold BLOCK at hn
        omega
      unfold blockMinima decodeBlocks Volforge.decodeBlocks
      rw [getVarint_eq, hblock, ← hn]
      cases hvarint : readVarint buf with
      | none => exact .inl ⟨rfl, rfl, rfl⟩
      | some x =>
          obtain ⟨packedMin, buf₁⟩ := x
          cases buf₁ with
          | nil => exact .inl ⟨rfl, rfl, rfl⟩
          | cons bits buf₂ =>
              simp only [Option.map_some, Option.bind_eq_bind, Option.bind_some]
              rcases readResiduals_skips buf₂ n bits.toNat with ⟨hread, hskip⟩ | ⟨residuals, buf₃, hread, hskip, hlen⟩
              · left
                rw [readResiduals_eq, hread, hskip]
                refine ⟨rfl, rfl, ?_⟩
                split_ifs <;> rfl
              · rw [readResiduals_eq, hread, hskip, if_neg (not_wide_of_residuals hread)]
                simp only [Option.map_some, Option.bind_some]
                set vs₁ := restoreValues scale (unzigzag packedMin) previous residuals with hvs
                set ws₁ := Volforge.restoreValues (UInt64.ofNat scale) (Volforge.unzigzag (UInt64.ofNat packedMin)) start
                  (residuals.map UInt64.ofNat) with hws
                rcases ih (remaining - n) (vs₁.getLastD previous) (ws₁.getLastD start) buf₃ hpos.2.2 with
                  ⟨hwalk, href, heng⟩ | ⟨minima, rest, vs₂, ws₂, hboth⟩
                · left
                  rw [hwalk, href, heng]
                  exact ⟨rfl, rfl, rfl⟩
                · right
                  have hlenv : vs₁.length = n := (length_restoreValues ..).trans hlen
                  have hlenw : ws₁.length = n := (length_engine_values ..).trans ((List.length_map ..).trans hlen)
                  refine ⟨packedMin :: minima, rest, vs₁ ++ vs₂, ws₁ ++ ws₂, ?_, ?_, ?_, ?_, ?_, ?_⟩
                  · unfold blockMinima
                    rw [hvarint, ← hn]
                    simp only [Option.bind_eq_bind, Option.bind_some, hskip, hboth.walks]
                    rfl
                  · unfold decodeBlocks
                    rw [hvarint, ← hn]
                    simp only [Option.bind_eq_bind, Option.bind_some, hread, ← hvs, hboth.reference]
                    rfl
                  · unfold Volforge.decodeBlocks
                    rw [getVarint_eq, hvarint, hblock, ← hn]
                    simp only [Option.map_some, Option.bind_eq_bind, Option.bind_some, readResiduals_eq, hread,
                      if_neg (not_wide_of_residuals hread), ← hws, hboth.engine]
                    rfl
                  · rw [List.length_append, hlenv, hboth.length_reference]
                    omega
                  · rw [List.length_append, hlenw, hboth.length_engine]
                    omega
                  · rintro rfl
                    have hne : residuals ≠ [] := List.ne_nil_of_length_pos (by omega)
                    have hfirst : vs₁ = ws₁.map Int64.toInt ↔ Harmless scale packedMin := restoreValues_eq_engine_iff hne
                    rw [List.map_append, List.append_eq_append_iff_of_size_eq_left (by simp [hlenv, hlenw]), hfirst,
                      List.forall_mem_cons]
                    refine and_congr_right (fun hharmless => hboth.same ?_)
                    -- the values read so far are the same, so the loop goes on from the same one
                    rw [hfirst.mpr hharmless]
                    exact getLastD_map_toInt (List.ne_nil_of_length_pos (by omega)) _ _

theorem skipResiduals_of_fewer {buf rest : Bytes} {n n' bits : Nat} (hle : n' ≤ n)
    (h : skipResiduals buf n bits = some rest) : ∃ rest', skipResiduals buf n' bits = some rest' := by
  have hmul : n' * bits ≤ n * bits := Nat.mul_le_mul_right bits hle
  unfold skipResiduals packedBytes at h ⊢
  split_ifs at h ⊢
  all_goals first
    | omega
    | exact ⟨_, rfl⟩

/-- Where the blocks of a count are present, so are those of a smaller one. -/
theorem blockMinima_of_fewer {k k' : Nat} (hle : k' ≤ k) {buf : Bytes}
    (h : blockMinima (blockCount k) k buf ≠ none) : blockMinima (blockCount k') k' buf ≠ none := by
  generalize hblocks : blockCount k = blocks at h
  induction blocks generalizing k k' buf with
  | zero =>
      have hzero : blockCount k' = 0 := by
        unfold blockCount kCodecBlock at hblocks ⊢
        omega
      rw [hzero]
      nofun
  | succ blocks ih =>
      by_cases hnone : k' = 0
      · subst hnone
        nofun
      have hsucc : ∃ blocks', blockCount k' = blocks' + 1 ∧ blockCount (k' - min BLOCK k') = blocks' := by
        refine ⟨blockCount k' - 1, ?_, ?_⟩
        · unfold blockCount kCodecBlock
          omega
        · unfold blockCount kCodecBlock BLOCK
          omega
      obtain ⟨blocks', hcount, hrest'⟩ := hsucc
      have hrest : blockCount (k - min BLOCK k) = blocks := by
        unfold blockCount kCodecBlock at hblocks ⊢
        unfold BLOCK
        omega
      rw [hcount]
      unfold blockMinima at h ⊢
      cases hvarint : readVarint buf with
      | none =>
          rw [hvarint] at h
          exact absurd rfl h
      | some x =>
          obtain ⟨packedMin, buf₁⟩ := x
          rw [hvarint] at h
          cases buf₁ with
          | nil => exact absurd rfl h
          | cons bits buf₂ =>
              simp only [Option.bind_eq_bind, Option.bind_some] at h ⊢
              cases hskip : skipResiduals buf₂ (min BLOCK k) bits.toNat with
              | none =>
                  rw [hskip] at h
                  exact absurd rfl h
              | some buf₃ =>
                  rw [hskip, Option.bind_some] at h
                  -- the residuals of this block are there for fewer values too
                  have hfewer : min BLOCK k' ≤ min BLOCK k := by omega
                  obtain ⟨buf₃', hskip'⟩ := skipResiduals_of_fewer hfewer hskip
                  rw [hskip', Option.bind_some]
                  have hwalk : blockMinima blocks (k - min BLOCK k) buf₃ ≠ none := by
                    intro hwalk
                    rw [hwalk] at h
                    exact h rfl
                  have hwalk' : blockMinima blocks' (k' - min BLOCK k') buf₃' ≠ none := by
                    rw [← hrest']
                    by_cases hfull : min BLOCK k' = min BLOCK k
                    · have hsame : buf₃' = buf₃ := by
                        rw [hfull, hskip] at hskip'
                        exact (Option.some.inj hskip').symm
                      rw [hsame]
                      exact ih (Nat.sub_le_sub_right hle _ |>.trans' (by omega)) hrest hwalk
                    · -- the smaller count ends in this block
                      have hlast : k' - min BLOCK k' = 0 := by omega
                      rw [hlast]
                      nofun
                  cases hmin : blockMinima blocks' (k' - min BLOCK k') buf₃' with
                  | none => exact absurd hmin hwalk'
                  | some x => nofun

/-! ## Main result -/

/-- The columns the two decoders read alike. A count that is a multiple of `2 ^ 64` is never one of them. -/
def ReadsAlike (data : Bytes) : Prop :=
  ∀ count buf₁, readVarint data = some (count, buf₁) → count ≠ 0 → ¬ 2 ^ 64 ∣ count ∧
    ∀ first buf₂ scale buf₃, readVarint buf₁ = some (first, buf₂) → readVarint buf₂ = some (scale, buf₃) → scale ≠ 0 →
      (2 ^ 64 ∣ scale → blockMinima (blockCount (count - 1)) (count - 1) buf₃ = none) ∧
      (¬ 2 ^ 64 ∣ scale → ∀ minima rest,
        blockMinima (blockCount (count % 2 ^ 64 - 1)) (count % 2 ^ 64 - 1) buf₃ = some (minima, rest) →
        count < 2 ^ 64 ∧ first < 2 ^ 64 ∧ ∀ m ∈ minima, Harmless scale m)

/-- A column with its three varints read: the reference decoder. -/
theorem readColumn_eq {data buf₁ buf₂ buf₃ : Bytes} {count first scale : Nat}
    (hcount : readVarint data = some (count, buf₁)) (hne : count ≠ 0) (hfirst : readVarint buf₁ = some (first, buf₂))
    (hscale : readVarint buf₂ = some (scale, buf₃)) (hpos : scale ≠ 0) :
    readColumn data = (decodeBlocks scale (blockCount (count - 1)) (count - 1) (unzigzag first) buf₃).map
      (fun x => (unzigzag first :: x.1, x.2)) := by
  unfold readColumn
  rw [hcount]
  simp only [Option.bind_eq_bind, Option.bind_some, if_neg hne, hfirst, hscale, if_neg hpos]
  exact Option.map_eq_bind.symm

theorem ofNat_eq_zero_iff (v : Nat) : UInt64.ofNat v = 0 ↔ 2 ^ 64 ∣ v := by
  rw [← UInt64.toNat_inj, UInt64.toNat_ofNat', Nat.dvd_iff_mod_eq_zero]
  rfl

/-- A column with its three varints read: the engine. -/
theorem engine_readColumn_eq {data buf₁ buf₂ buf₃ : Bytes} {count first scale : Nat}
    (hcount : readVarint data = some (count, buf₁)) (hne : ¬ 2 ^ 64 ∣ count)
    (hfirst : readVarint buf₁ = some (first, buf₂)) (hscale : readVarint buf₂ = some (scale, buf₃))
    (hpos : ¬ 2 ^ 64 ∣ scale) :
    Volforge.readColumn data = (Volforge.decodeBlocks (UInt64.ofNat scale) (blockCount (count % 2 ^ 64 - 1))
      (count % 2 ^ 64 - 1) (Volforge.unzigzag (UInt64.ofNat first)) buf₃).map
        (fun x => (Volforge.unzigzag (UInt64.ofNat first) :: x.1, x.2)) := by
  rw [← ofNat_eq_zero_iff] at hne hpos
  unfold Volforge.readColumn
  rw [getVarint_eq, hcount]
  simp only [Option.map_some, Option.bind_eq_bind, Option.bind_some, if_neg hne, getVarint_eq, hfirst, hscale,
    if_neg hpos, UInt64.toNat_ofNat']
  exact Option.map_eq_bind.symm

/-- The reference decoder returns as many values as the count says. -/
theorem length_readColumn {data buf₁ rest : Bytes} {count : Nat} {vs : List Int}
    (hcount : readVarint data = some (count, buf₁)) (h : readColumn data = some (vs, rest)) : vs.length = count := by
  by_cases hne : count = 0
  · subst hne
    unfold readColumn at h
    rw [hcount] at h
    cases h
    rfl
  · cases hfirst : readVarint buf₁ with
    | none =>
        unfold readColumn at h
        simp [hcount, hne, hfirst] at h
    | some x =>
        cases hscale : readVarint x.2 with
        | none =>
            unfold readColumn at h
            simp [hcount, hne, hfirst, hscale] at h
        | some y =>
            by_cases hpos : y.1 = 0
            · unfold readColumn at h
              simp [hcount, hne, hfirst, hscale, hpos] at h
            · rw [readColumn_eq hcount hne hfirst hscale hpos] at h
              obtain ⟨⟨ws, _⟩, hblocks, h⟩ := Option.map_eq_some_iff.mp h
              cases h
              rcases decodeBlocks_alike y.1 _ _ (unzigzag x.1) 0 y.2 rfl with ⟨_, hnone, _⟩ | ⟨_, _, vs', _, hboth⟩
              · rw [hnone] at hblocks
                cases hblocks
              · rw [hboth.reference] at hblocks
                cases hblocks
                have hlen := hboth.length_reference
                show ws.length + 1 = count
                omega

theorem agree_iff (data : Bytes) :
    decodeColumn data = (Volforge.decodeColumn data).map (fun x => (x.1, x.2.map Int64.toInt)) ↔
      (readColumn data).map (fun x => (data.length - x.2.length, x.1)) =
        (Volforge.readColumn data).map (fun x => (data.length - x.2.length, x.1.map Int64.toInt)) := by
  unfold decodeColumn Volforge.decodeColumn
  cases readColumn data <;> cases Volforge.readColumn data <;> rfl

/-- A count that is a multiple of `2 ^ 64` is zero to the engine only. -/
theorem not_agree_of_dvd {data buf₁ : Bytes} {count : Nat} (hcount : readVarint data = some (count, buf₁))
    (hne : count ≠ 0) (hdvd : 2 ^ 64 ∣ count) :
    decodeColumn data ≠ (Volforge.decodeColumn data).map (fun x => (x.1, x.2.map Int64.toInt)) := by
  intro h
  have hengine : Volforge.readColumn data = some ([], buf₁) := by
    unfold Volforge.readColumn
    rw [getVarint_eq, hcount]
    simp [(ofNat_eq_zero_iff count).mpr hdvd]
  rw [agree_iff, hengine] at h
  obtain ⟨⟨vs, rest⟩, hread, h⟩ := Option.map_eq_some_iff.mp h
  have hlen := length_readColumn hcount hread
  have hvs : vs = [] := congrArg Prod.snd h
  rw [hvs] at hlen
  exact hne hlen.symm

/-- With a scale that is a multiple of `2 ^ 64` the engine rejects the column. -/
theorem agree_iff_of_scale_dvd {data buf₁ buf₂ buf₃ : Bytes} {count first scale : Nat}
    (hcount : readVarint data = some (count, buf₁)) (hne : ¬ 2 ^ 64 ∣ count)
    (hfirst : readVarint buf₁ = some (first, buf₂)) (hscale : readVarint buf₂ = some (scale, buf₃)) (hpos : scale ≠ 0)
    (hdvd : 2 ^ 64 ∣ scale) :
    decodeColumn data = (Volforge.decodeColumn data).map (fun x => (x.1, x.2.map Int64.toInt)) ↔
      blockMinima (blockCount (count - 1)) (count - 1) buf₃ = none := by
  have hne' : count ≠ 0 := by
    rintro rfl
    exact hne (dvd_zero _)
  have hengine : Volforge.readColumn data = none := by
    rw [← ofNat_eq_zero_iff] at hne hdvd
    unfold Volforge.readColumn
    rw [getVarint_eq, hcount]
    simp [hne, getVarint_eq, hfirst, hscale, hdvd]
  rw [agree_iff, hengine, readColumn_eq hcount hne' hfirst hscale hpos]
  rcases decodeBlocks_alike scale _ (count - 1) (unzigzag first) 0 buf₃ rfl with ⟨hwalk, href, _⟩ | ⟨_, _, _, _, hboth⟩
  · rw [hwalk, href]
    exact iff_of_true rfl rfl
  · rw [hboth.walks, hboth.reference]
    exact iff_of_false nofun nofun

/-- With a scale the engine accepts, a column is read alike when its varints fit, or when blocks are missing. -/
theorem agree_iff_of_scale {data buf₁ buf₂ buf₃ : Bytes} {count first scale : Nat}
    (hcount : readVarint data = some (count, buf₁)) (hne : ¬ 2 ^ 64 ∣ count)
    (hfirst : readVarint buf₁ = some (first, buf₂)) (hscale : readVarint buf₂ = some (scale, buf₃))
    (hdvd : ¬ 2 ^ 64 ∣ scale) :
    decodeColumn data = (Volforge.decodeColumn data).map (fun x => (x.1, x.2.map Int64.toInt)) ↔
      ∀ minima rest,
        blockMinima (blockCount (count % 2 ^ 64 - 1)) (count % 2 ^ 64 - 1) buf₃ = some (minima, rest) →
        count < 2 ^ 64 ∧ first < 2 ^ 64 ∧ ∀ m ∈ minima, Harmless scale m := by
  have hne' : count ≠ 0 := by
    rintro rfl
    exact hne (dvd_zero _)
  have hpos : scale ≠ 0 := by
    rintro rfl
    exact hdvd (dvd_zero _)
  rw [agree_iff, readColumn_eq hcount hne' hfirst hscale hpos, engine_readColumn_eq hcount hne hfirst hscale hdvd]
  set start := Volforge.unzigzag (UInt64.ofNat first) with hstart
  have hhead : unzigzag first = start.toInt ↔ first < 2 ^ 64 := unzigzag_eq_iff first
  by_cases hfits : count < 2 ^ 64
  · -- both decoders go through the same blocks
    rw [Nat.mod_eq_of_lt hfits]
    rcases decodeBlocks_alike scale _ (count - 1) (unzigzag first) start buf₃ rfl with
      ⟨hwalk, href, heng⟩ | ⟨minima, rest, vs, ws, hboth⟩
    · rw [hwalk, href, heng]
      exact iff_of_true rfl nofun
    · rw [hboth.walks, hboth.reference, hboth.engine]
      have hsame : first < 2 ^ 64 → (vs = ws.map Int64.toInt ↔ ∀ m ∈ minima, Harmless scale m) := by
        intro hlt
        refine hboth.same ?_
        rw [hhead.mpr hlt, Int64.ofInt_toInt]
      constructor
      · intro h
        simp only [Option.map_some, Option.some.injEq, Prod.mk.injEq, true_and, List.map_cons, List.cons.injEq] at h
        have hlt := hhead.mp h.1
        rintro _ _ ⟨⟩
        exact ⟨hfits, hlt, (hsame hlt).mp h.2⟩
      · intro h
        obtain ⟨_, hlt, hharmless⟩ := h minima rest rfl
        simp only [Option.map_some, List.map_cons]
        rw [hhead.mpr hlt, (hsame hlt).mpr hharmless]
  · -- the reference decoder wants more values than the engine
    rcases decodeBlocks_alike scale _ (count % 2 ^ 64 - 1) (unzigzag first) start buf₃ rfl with
      ⟨hwalk, _, heng⟩ | ⟨minima, rest, vs, ws, hboth⟩
    · -- blocks of the engine's count are missing, so blocks of the larger one are
      have hmore : blockMinima (blockCount (count - 1)) (count - 1) buf₃ = none := by
        by_contra hsome
        have hle : count % 2 ^ 64 ≤ count := Nat.mod_le _ _
        exact blockMinima_of_fewer (Nat.sub_le_sub_right hle 1) hsome hwalk
      rcases decodeBlocks_alike scale _ (count - 1) (unzigzag first) start buf₃ rfl with
        ⟨_, href, _⟩ | ⟨_, _, _, _, hboth⟩
      · rw [hwalk, heng, href]
        exact iff_of_true rfl nofun
      · rw [hboth.walks] at hmore
        cases hmore
    · -- the engine returns a column, and a result of the reference decoder is longer
      rw [hboth.walks, hboth.engine]
      refine iff_of_false (fun h => ?_) (fun h => hfits (h minima rest rfl).1)
      rw [Option.map_map, Option.map_some] at h
      obtain ⟨⟨vs', rest'⟩, href, h⟩ := Option.map_eq_some_iff.mp h
      rcases decodeBlocks_alike scale _ (count - 1) (unzigzag first) start buf₃ rfl with
        ⟨_, hnone, _⟩ | ⟨_, _, _, _, hboth'⟩
      · rw [hnone] at href
        cases href
      · rw [hboth'.reference] at href
        cases href
        have hvs := congrArg (fun x => x.2.length) h
        have hlen := hboth'.length_reference
        have hlen' := hboth.length_engine
        simp only [Function.comp_apply, List.length_cons, List.length_map] at hvs
        omega

/-- **The two decoders agree exactly on the columns that are read alike**: both reject them, or both return the same
    values and the same number of bytes. -/
theorem reference_agrees_iff (data : Bytes) :
    decodeColumn data = (Volforge.decodeColumn data).map (fun x => (x.1, x.2.map Int64.toInt)) ↔ ReadsAlike data := by
  constructor
  · intro h count buf₁ hcount hne
    have hdvd : ¬ 2 ^ 64 ∣ count := fun hdvd => not_agree_of_dvd hcount hne hdvd h
    refine ⟨hdvd, fun first buf₂ scale buf₃ hfirst hscale hpos => ⟨fun hscaled => ?_, fun hscaled => ?_⟩⟩
    · exact (agree_iff_of_scale_dvd hcount hdvd hfirst hscale hpos hscaled).mp h
    · exact (agree_iff_of_scale hcount hdvd hfirst hscale hscaled).mp h
  · intro h
    cases hcount : readVarint data with
    | none =>
        rw [agree_iff, readColumn, Volforge.readColumn, getVarint_eq, hcount]
        rfl
    | some x =>
        obtain ⟨count, buf₁⟩ := x
        by_cases hne : count = 0
        · subst hne
          rw [agree_iff, readColumn, Volforge.readColumn, getVarint_eq, hcount]
          rfl
        obtain ⟨hdvd, h⟩ := h count buf₁ hcount hne
        have hengine := (ofNat_eq_zero_iff count).not.mpr hdvd
        cases hfirst : readVarint buf₁ with
        | none =>
            rw [agree_iff, readColumn, Volforge.readColumn, getVarint_eq, hcount]
            simp [hne, hengine, getVarint_eq, hfirst]
        | some y =>
            obtain ⟨first, buf₂⟩ := y
            cases hscale : readVarint buf₂ with
            | none =>
                rw [agree_iff, readColumn, Volforge.readColumn, getVarint_eq, hcount]
                simp [hne, hengine, getVarint_eq, hfirst, hscale]
            | some z =>
                obtain ⟨scale, buf₃⟩ := z
                by_cases hpos : scale = 0
                · subst hpos
                  rw [agree_iff, readColumn, Volforge.readColumn, getVarint_eq, hcount]
                  simp [hne, hengine, getVarint_eq, hfirst, hscale]
                · obtain ⟨hzero, hpresent⟩ := h first buf₂ scale buf₃ hfirst hscale hpos
                  by_cases hscaled : 2 ^ 64 ∣ scale
                  · exact (agree_iff_of_scale_dvd hcount hdvd hfirst hscale hpos hscaled).mpr (hzero hscaled)
                  · exact (agree_iff_of_scale hcount hdvd hfirst hscale hscaled).mpr (hpresent hscaled)

/-- A count of `2 ^ 64`, with nothing after it. -/
def wrappedCount : Bytes := [0x80, 0x80, 0x80, 0x80, 0x80, 0x80, 0x80, 0x80, 0x80, 0x02]

/-- The engine reads it as an empty column, the reference decoder runs out of input. -/
theorem wrapped_count_is_read_apart :
    Volforge.decodeColumn wrappedCount = some (10, []) ∧ decodeColumn wrappedCount = none := by
  constructor <;> decide +kernel

end Volforge.ReferenceReader
