import Volforge.Store.Codec
import Volforge.Lib.Digits

/-!
# `Store.Correctness.Codec` — the column codec round trip

Machine words are read as numbers, where or-ing is adding and shifting is multiplying by a power of two. A
column comes back because each stage does: `readColumn` reads off exactly what `encodeColumn` wrote and
leaves the rest.

## Contents
- **Zigzag and varints.** `unzigzag_zigzag`, `getVarint_put`.
- **Packing, unpacking.** What is packed is one number whose digits in base `2 ^ bits` are the values;
  `unpack` reads its digits.
- **Raw blocks, bit widths.** The fallback of eight bytes a value, and the width that holds every residual.
- **The common divisor.** Dividing by it and multiplying with it cancel in wrapping arithmetic.
- **Blocks and columns.** `decodeBlocks_encodeBlocks` by induction on the blocks, `column_codec_round_trip`.
-/

namespace Volforge

/-! ## Zigzag and varints -/

/-- All bits set, or none. -/
def spread (s : Bool) : BitVec 64 := if s then BitVec.allOnes 64 else 0#64

theorem getLsbD_spread (s : Bool) {i : Nat} (hi : i < 64) : (spread s).getLsbD i = s := by
  cases s with
  | false => exact BitVec.getLsbD_zero
  | true => exact (BitVec.getLsbD_allOnes).trans (decide_eq_true hi)

theorem sshiftRight_sign (x : BitVec 64) : x.sshiftRight 63 = spread x.msb := by
  apply BitVec.eq_of_getLsbD_eq
  intro i hi
  rw [getLsbD_spread _ hi, BitVec.getLsbD_sshiftRight]
  by_cases hzero : i = 0
  · subst hzero
    simp [BitVec.msb_eq_getLsbD_last]
  · have hout : ¬ (63 + i < 64) := by omega
    simp [hout, hi]

theorem neg_low_bit (y : BitVec 64) : ~~~(y &&& 1#64) + 1#64 = spread (y.getLsbD 0) := by
  have hlow : y &&& 1#64 = if y.getLsbD 0 then 1#64 else 0#64 := by
    apply BitVec.eq_of_getLsbD_eq
    intro i hi
    cases hy : y.getLsbD 0 with
    | false =>
      by_cases hzero : i = 0
      · subst hzero
        rw [BitVec.getLsbD_and, hy]
        rfl
      · simp [BitVec.getLsbD_and, BitVec.getLsbD_one, hzero]
    | true =>
      by_cases hzero : i = 0
      · subst hzero
        rw [BitVec.getLsbD_and, hy]
        rfl
      · simp [BitVec.getLsbD_and, BitVec.getLsbD_one, hzero]
  rw [hlow]
  cases y.getLsbD 0 with
  | false => rfl
  | true => rfl

theorem unzigzag_zigzag (v : Int64) : unzigzag (zigzag v) = v := by
  unfold unzigzag zigzag
  apply Int64.toBitVec_inj.mp
  simp only [UInt64.toBitVec_toInt64, UInt64.toBitVec_xor, UInt64.toBitVec_shiftRight, UInt64.toBitVec_shiftLeft,
    UInt64.toBitVec_add, UInt64.toBitVec_not, UInt64.toBitVec_and, Int64.toBitVec_toUInt64, Int64.toBitVec_shiftRight]
  generalize v.toBitVec = x
  show (x <<< 1 ^^^ x.sshiftRight 63) >>> 1 ^^^ ~~~((x <<< 1 ^^^ x.sshiftRight 63) &&& 1#64) + 1#64 = x
  have hlow : (x <<< 1 ^^^ spread x.msb).getLsbD 0 = x.msb := by
    rw [BitVec.getLsbD_xor, getLsbD_spread _ (by omega)]
    simp
  rw [sshiftRight_sign, neg_low_bit, hlow]
  apply BitVec.eq_of_getLsbD_eq
  intro i hi
  rw [BitVec.getLsbD_xor, BitVec.getLsbD_ushiftRight, BitVec.getLsbD_xor, getLsbD_spread _ hi]
  obtain hlast | rfl : i < 63 ∨ i = 63 := by omega
  · rw [getLsbD_spread _ (by omega)]
    have hshift : (x <<< 1).getLsbD (1 + i) = x.getLsbD i := by
      rw [BitVec.getLsbD_shiftLeft]
      simp [show 1 + i < 64 by omega]
    rw [hshift, Bool.xor_assoc, Bool.xor_self, Bool.xor_false]
  · have hout : ∀ y : BitVec 64, y.getLsbD (1 + 63) = false := fun y => BitVec.getLsbD_of_ge y 64 (Nat.le_refl _)
    rw [hout, hout, BitVec.msb_eq_getLsbD_last]
    simp

theorem and_low7 (b : UInt8) : (b &&& 0x7F).toNat = b.toNat % 128 := by
  rw [UInt8.toNat_and]
  exact Nat.and_two_pow_sub_one_eq_mod b.toNat 7

/-- There are 256 bytes. -/
theorem forall_byte {P : UInt8 → Prop} (h : ∀ i : Fin 256, P (UInt8.ofNat i.val)) (b : UInt8) : P b := by
  have hb := h ⟨b.toNat, b.toNat_lt⟩
  rwa [UInt8.ofNat_toNat] at hb

theorem and_high_bit : ∀ b : UInt8, b &&& 0x80 = 0 ↔ b.toNat < 128 := forall_byte (by decide +kernel)

theorem or_high_bit : ∀ b : UInt8, (b ||| 0x80).toNat % 128 = b.toNat % 128 ∧ 128 ≤ (b ||| 0x80).toNat :=
  forall_byte (by decide +kernel)

/-- Or-ing in a byte's seven bits above those read so far. -/
theorem toNat_or_shift {out x : UInt64} {shift : Nat} (hout : out.toNat < 2 ^ shift) (hshift : shift < 64)
    (hfit : x.toNat * 2 ^ shift < 2 ^ 64) :
    (out ||| (x <<< UInt64.ofNat shift)).toNat = out.toNat + 2 ^ shift * x.toNat := by
  have hcount : (UInt64.ofNat shift).toNat % 64 = shift := by
    rw [UInt64.toNat_ofNat']
    omega
  have hkept : (x <<< UInt64.ofNat shift).toNat = x.toNat <<< shift := by
    rw [UInt64.toNat_shiftLeft, hcount, Nat.shiftLeft_eq, Nat.mod_eq_of_lt hfit]
  rw [UInt64.toNat_or, hkept, Digits.or_shiftLeft hout]

/-- Or-ing in a value of `width` bits above the bits held, where there is room for it. -/
theorem toNat_or_held {acc x : UInt64} {held width : Nat} (hacc : acc.toNat < 2 ^ held) (hx : x.toNat < 2 ^ width)
    (hheld : held < 64) (hroom : held + width ≤ 64) :
    (acc ||| (x <<< UInt64.ofNat held)).toNat = acc.toNat + 2 ^ held * x.toNat ∧
      (acc ||| (x <<< UInt64.ofNat held)).toNat < 2 ^ (held + width) := by
  have hsum := Digits.add_mul_lt hacc hx
  have hfit : x.toNat * 2 ^ held < 2 ^ 64 := by
    calc x.toNat * 2 ^ held = 2 ^ held * x.toNat := Nat.mul_comm ..
      _ ≤ acc.toNat + 2 ^ held * x.toNat := Nat.le_add_left ..
      _ < 2 ^ (held + width) := hsum
      _ ≤ 2 ^ 64 := Nat.pow_le_pow_right (by norm_num) hroom
  have hor := toNat_or_shift hacc hheld hfit
  exact ⟨hor, hor ▸ hsum⟩

/-- A value below 128 is a byte that says it is the last. -/
theorem last_byte {v : UInt64} (hv : v.toNat < 128) :
    v.toUInt8 &&& 0x80 = 0 ∧ (v.toUInt8 &&& 0x7F).toUInt64.toNat = v.toNat := by
  have hlow : v.toUInt8.toNat = v.toNat := by
    rw [UInt64.toNat_toUInt8]
    omega
  constructor
  · exact (and_high_bit _).mpr (by omega)
  · rw [UInt8.toNat_toUInt64, and_low7, hlow]
    omega

/-- Reading at `shift` adds the value to what was read below it; `k` more bytes may follow the next one. -/
theorem getVarintFrom_put (rest : Bytes) : ∀ (k shift : Nat) (v out : UInt64), shift = 7 * (9 - k) → k ≤ 9 →
    v.toNat < 2 ^ (64 - shift) → out.toNat < 2 ^ shift →
    ∃ w : UInt64, getVarintFrom shift out (putVarintFrom k v ++ rest) = some (w, rest) ∧
      w.toNat = out.toNat + 2 ^ shift * v.toNat := by
  intro k
  induction k with
  | zero =>
      intro shift v out hshift _ hv hout
      -- the tenth byte has one bit left, and says that it is the last
      obtain rfl : shift = 63 := by omega
      obtain ⟨hlast, hbyte⟩ := last_byte (v := v) (by omega)
      rw [putVarintFrom, List.singleton_append, getVarintFrom, if_pos hlast]
      exact ⟨_, rfl, by rw [toNat_or_shift hout (by omega) (by rw [hbyte]; omega), hbyte]⟩
  | succ k ih =>
      intro shift v out hshift hk hv hout
      have hle : shift ≤ 56 := by omega
      have hpow : 2 ^ (64 - shift) * 2 ^ shift = 2 ^ 64 := by rw [← Nat.pow_add]; congr 1; omega
      have hbound : ∀ b : UInt8, (b &&& 0x7F).toUInt64.toNat * 2 ^ shift < 2 ^ 64 := by
        intro b
        rw [UInt8.toNat_toUInt64, and_low7]
        have h128 : b.toNat % 128 < 128 := Nat.mod_lt _ (by norm_num)
        have hp : 2 ^ shift ≤ 2 ^ 56 := Nat.pow_le_pow_right (by norm_num) hle
        calc b.toNat % 128 * 2 ^ shift ≤ 127 * 2 ^ 56 := Nat.mul_le_mul (by omega) hp
          _ < 2 ^ 64 := by norm_num
      rw [putVarintFrom]
      by_cases hbig : 0x80 ≤ v
      · -- seven bits go out under the mark that more follow
        have hbig' : 128 ≤ v.toNat := hbig
        have hmark := or_high_bit v.toUInt8
        have hlow : ((v.toUInt8 ||| 0x80) &&& 0x7F).toUInt64.toNat = v.toNat % 128 := by
          rw [UInt8.toNat_toUInt64, and_low7, hmark.1, UInt64.toNat_toUInt8]
          omega
        have hrest : (v >>> 7).toNat = v.toNat / 128 := by
          rw [UInt64.toNat_shiftRight]
          exact Nat.shiftRight_eq_div_pow _ _
        rw [if_pos hbig, List.cons_append, getVarintFrom, if_neg (fun h => by
          have := (and_high_bit _).mp h
          omega), if_neg (by omega)]
        set out' := out ||| (((v.toUInt8 ||| 0x80) &&& 0x7F).toUInt64 <<< UInt64.ofNat shift) with hdef
        have hout' : out'.toNat = out.toNat + 2 ^ shift * (v.toNat % 128) := by
          rw [hdef, toNat_or_shift hout (by omega) (hbound _), hlow]
        have hpow7 : 2 ^ (shift + 7) = 2 ^ shift * 128 := by rw [Nat.pow_add]
        have hv' : v.toNat / 128 < 2 ^ (64 - (shift + 7)) := by
          rw [Nat.div_lt_iff_lt_mul (by norm_num)]
          have : 2 ^ (64 - (shift + 7)) * 128 = 2 ^ (64 - shift) := by
            rw [show (128 : Nat) = 2 ^ 7 by norm_num, ← Nat.pow_add]
            congr 1
            omega
          omega
        have hlt : 2 ^ shift * (v.toNat % 128) ≤ 2 ^ shift * 127 := Nat.mul_le_mul_left _ (by omega)
        obtain ⟨w, hw, heq⟩ := ih (shift + 7) (v >>> 7) out' (by omega) (by omega) (by rw [hrest]; exact hv')
          (by rw [hout', hpow7]; omega)
        refine ⟨w, hw, ?_⟩
        rw [heq, hout', hrest, hpow7, Nat.mul_assoc, Nat.add_assoc, ← Nat.mul_add, Nat.mod_add_div]
      · obtain ⟨hlast, hbyte⟩ := last_byte (v := v) (Nat.lt_of_not_le hbig)
        rw [if_neg hbig, List.singleton_append, getVarintFrom, if_pos hlast]
        exact ⟨_, rfl, by rw [toNat_or_shift hout (by omega) (hbound _), hbyte]⟩

theorem getVarint_put (v : UInt64) (rest : Bytes) : getVarint (putVarint v ++ rest) = some (v, rest) := by
  obtain ⟨w, hw, heq⟩ := getVarintFrom_put rest 9 0 v 0 (by omega) (by omega) v.toNat_lt (by norm_num)
  have hv : w = v := UInt64.toNat_inj.mp (by simpa using heq)
  rw [hv] at hw
  exact hw

/-! ## Packing -/

theorem toNat_bitMask {bits : Nat} (hbits : bits ≤ kMaxPackedBits) : (bitMask bits).toNat = 2 ^ bits - 1 := by
  unfold kMaxPackedBits at hbits
  have hcount : (UInt64.ofNat bits).toNat % 64 = bits := by
    rw [UInt64.toNat_ofNat']
    omega
  have hpow : 2 ^ bits < 2 ^ 64 := Nat.pow_lt_pow_right (by norm_num) (by omega)
  have hone : ((1 : UInt64) <<< UInt64.ofNat bits).toNat = 2 ^ bits := by
    rw [UInt64.toNat_shiftLeft, hcount, Nat.shiftLeft_eq, show (1 : UInt64).toNat = 1 from rfl, Nat.one_mul,
      Nat.mod_eq_of_lt hpow]
  unfold bitMask
  rw [if_neg (by omega), UInt64.toNat_sub_of_le]
  · rw [hone]
    rfl
  · rw [UInt64.le_iff_toNat_le, hone]
    exact Nat.one_le_two_pow

theorem toNat_and_bitMask {bits : Nat} (hbits : bits ≤ kMaxPackedBits) (v : UInt64) :
    (v &&& bitMask bits).toNat = v.toNat % 2 ^ bits := by
  rw [UInt64.toNat_and, toNat_bitMask hbits, Nat.and_two_pow_sub_one_eq_mod]

theorem toNat_low_byte (v : UInt64) : (v &&& 0xFF).toUInt8.toNat = v.toNat % 256 := by
  rw [UInt64.toNat_toUInt8, UInt64.toNat_and, show (0xFF : UInt64).toNat = 2 ^ 8 - 1 from rfl,
    Nat.and_two_pow_sub_one_eq_mod]
  omega

theorem toNat_shiftRight_8 (v : UInt64) : (v >>> 8).toNat = v.toNat / 256 := by
  rw [UInt64.toNat_shiftRight]
  exact Nat.shiftRight_eq_div_pow _ _

/-- Draining splits the accumulator into the bytes emitted and what is left. -/
theorem drain_spec (k : Nat) (acc : UInt64) : (drain k acc).1.length = k ∧
    (drain k acc).2.toNat = acc.toNat / 256 ^ k ∧
    LittleEndian.value (drain k acc).1 + 256 ^ k * (drain k acc).2.toNat = acc.toNat := by
  induction k generalizing acc with
  | zero => simp [drain]
  | succ k ih =>
      obtain ⟨hlen, hleft, hvalue⟩ := ih (acc >>> 8)
      rw [toNat_shiftRight_8] at hleft hvalue
      refine ⟨by rw [drain, List.length_cons, hlen], ?_, ?_⟩
      · rw [drain, hleft, Nat.div_div_eq_div_mul, Nat.pow_succ, Nat.mul_comm 256]
      · rw [drain, LittleEndian.value_cons, toNat_low_byte, Nat.pow_succ]
        calc acc.toNat % 256 + 256 * LittleEndian.value (drain k (acc >>> 8)).1 +
              256 ^ k * 256 * (drain k (acc >>> 8)).2.toNat
            = acc.toNat % 256 + 256 * (LittleEndian.value (drain k (acc >>> 8)).1 +
                256 ^ k * (drain k (acc >>> 8)).2.toNat) := by ring
          _ = acc.toNat := by rw [hvalue, Nat.mod_add_div]

/-- What `pack` has emitted and still holds is the number whose digits in base `2 ^ bits` are the values. -/
theorem packFrom_spec {bits : Nat} (hbits : bits ≤ kMaxPackedBits) (values : List UInt64) (acc : UInt64) (held : Nat)
    (hheld : held < 8) (hacc : acc.toNat < 2 ^ held) :
    (packFrom bits values acc held).length = (held + values.length * bits + 7) / 8 ∧
    LittleEndian.value (packFrom bits values acc held) =
      acc.toNat + 2 ^ held * Nat.ofDigits (2 ^ bits) (values.map (fun v => v.toNat % 2 ^ bits)) := by
  have hmax := hbits
  unfold kMaxPackedBits at hmax
  induction values generalizing acc held with
  | nil =>
      have h256 : 2 ^ held ≤ 256 := by
        calc 2 ^ held ≤ 2 ^ 8 := Nat.pow_le_pow_right (by norm_num) (by omega)
          _ = 256 := by norm_num
      unfold packFrom
      split_ifs with hpos
      · refine ⟨by simp; omega, ?_⟩
        rw [LittleEndian.value_cons, toNat_low_byte, Nat.mod_eq_of_lt (by omega)]
        simp
      · obtain rfl : held = 0 := by omega
        refine ⟨by simp, ?_⟩
        simp at hacc
        simp [hacc]
  | cons v values ih =>
      have hv : (v &&& bitMask bits).toNat = v.toNat % 2 ^ bits := toNat_and_bitMask hbits v
      have hvlt : v.toNat % 2 ^ bits < 2 ^ bits := Nat.mod_lt _ (Nat.two_pow_pos _)
      obtain ⟨hor, hacc'⟩ := toNat_or_held hacc (hv ▸ hvlt) (by omega) (by omega)
      rw [hv] at hor
      unfold packFrom
      dsimp only
      generalize acc ||| (v &&& bitMask bits) <<< UInt64.ofNat held = acc' at hor hacc'
      -- the whole bytes are emitted, the bits above them stay held
      obtain ⟨hlen, hleft, hvalue⟩ := drain_spec ((held + bits) / 8) acc'
      have hsplit : 2 ^ (held + bits) = 256 ^ ((held + bits) / 8) * 2 ^ ((held + bits) % 8) := by
        rw [show (256 : Nat) = 2 ^ 8 by norm_num, ← Nat.pow_mul, ← Nat.pow_add, Nat.div_add_mod]
      have hleft' : (drain ((held + bits) / 8) acc').2.toNat < 2 ^ ((held + bits) % 8) := by
        rw [hleft]
        exact Nat.div_lt_of_lt_mul (by rw [← hsplit]; exact hacc')
      obtain ⟨hlen', hvalue'⟩ := ih _ _ (Nat.mod_lt _ (by norm_num)) hleft'
      constructor
      · rw [List.length_append, hlen, hlen', List.length_cons, Nat.succ_mul]
        omega
      · rw [LittleEndian.value_append, hlen, hvalue', List.map_cons, Nat.ofDigits_cons, Nat.mul_add, ← Nat.add_assoc,
          hvalue, hor, ← Nat.mul_assoc, ← hsplit, Nat.pow_add]
        ring

/-! ## Unpacking -/

/-- The stream still to be decoded: the bits held, and above them the bytes not read yet. -/
def streamValue (q : Bytes) (acc : UInt64) (held : Nat) : Nat := acc.toNat + 2 ^ held * LittleEndian.value q

theorem fill_spec {bits : Nat} (hbits : bits ≤ kMaxPackedBits) (q : Bytes) (acc : UInt64) (held : Nat)
    (hheld : held < 64) (hacc : acc.toNat < 2 ^ held) :
    let filled := fill bits q acc held
    streamValue filled.1 filled.2.1 filled.2.2 = streamValue q acc held ∧ filled.2.1.toNat < 2 ^ filled.2.2 ∧
      filled.2.2 < 64 ∧ (bits ≤ filled.2.2 ∨ filled.1 = []) := by
  have hmax := hbits
  unfold kMaxPackedBits at hmax
  induction q generalizing acc held with
  | nil => exact ⟨rfl, hacc, hheld, .inr rfl⟩
  | cons b q ih =>
      unfold fill
      split_ifs with hlt
      · have hb : b.toUInt64.toNat < 2 ^ 8 := by
          rw [UInt8.toNat_toUInt64]
          exact b.toNat_lt
        obtain ⟨hor, hacc'⟩ := toNat_or_held hacc hb hheld (by omega)
        rw [UInt8.toNat_toUInt64] at hor
        obtain ⟨hvalue, hrest⟩ := ih _ (held + 8) (by omega) hacc'
        refine ⟨?_, hrest⟩
        rw [hvalue]
        unfold streamValue
        rw [hor, LittleEndian.value_cons, Nat.pow_add]
        ring
      · exact ⟨rfl, hacc, hheld, .inl (Nat.le_of_not_lt hlt)⟩

/-- **`unpack` reads the digits of the stream in base `2 ^ bits`.** -/
theorem unpackFrom_spec {bits : Nat} (hbits : bits ≤ kMaxPackedBits) (n : Nat) (q : Bytes) (acc : UInt64) (held : Nat)
    (hheld : held < 64) (hacc : acc.toNat < 2 ^ held) :
    (unpackFrom bits n q acc held).map UInt64.toNat = Digits.digits (2 ^ bits) n (streamValue q acc held) := by
  have hmax := hbits
  unfold kMaxPackedBits at hmax
  induction n generalizing q acc held with
  | zero => rfl
  | succ n ih =>
      obtain ⟨hvalue, hlt, hheld', hfull⟩ := fill_spec hbits q acc held hheld hacc
      unfold unpackFrom
      dsimp only
      generalize fill bits q acc held = filled at hvalue hlt hheld' hfull
      obtain ⟨q', acc', held'⟩ := filled
      dsimp only at hvalue hlt hheld' hfull ⊢
      have hcount : (UInt64.ofNat bits).toNat % 64 = bits := by
        rw [UInt64.toNat_ofNat']
        omega
      have hshift : (acc' >>> UInt64.ofNat bits).toNat = acc'.toNat / 2 ^ bits := by
        rw [UInt64.toNat_shiftRight, hcount, Nat.shiftRight_eq_div_pow]
      -- either enough bits are held, or there are no bytes above them
      have hdigit : acc'.toNat % 2 ^ bits = streamValue q' acc' held' % 2 ^ bits ∧
          streamValue q' (acc' >>> UInt64.ofNat bits) (held' - bits) = streamValue q' acc' held' / 2 ^ bits ∧
          acc'.toNat / 2 ^ bits < 2 ^ (held' - bits) := by
        unfold streamValue
        rw [hshift]
        rcases hfull with hle | rfl
        · have hpow : 2 ^ held' = 2 ^ bits * 2 ^ (held' - bits) := by
            rw [← Nat.pow_add]
            congr 1
            omega
          rw [hpow, Nat.mul_assoc, Nat.add_mul_mod_self_left, Nat.add_mul_div_left _ _ (Nat.two_pow_pos _)]
          exact ⟨rfl, rfl, Nat.div_lt_of_lt_mul (by rw [← hpow]; exact hlt)⟩
        · refine ⟨by simp, by simp, ?_⟩
          rcases Nat.le_total bits held' with hle | hle
          · refine Nat.div_lt_of_lt_mul ?_
            rw [← Nat.pow_add, Nat.add_sub_cancel' hle]
            exact hlt
          · rw [Nat.sub_eq_zero_of_le hle, Nat.div_eq_of_lt (Nat.lt_of_lt_of_le hlt
              (Nat.pow_le_pow_right (by norm_num) hle))]
            norm_num
      obtain ⟨hlow, hnext, hleft⟩ := hdigit
      rw [List.map_cons, toNat_and_bitMask hbits, ih q' _ (held' - bits) (by omega) (by rw [hshift]; exact hleft),
        hnext, hvalue, Digits.digits, hlow, hvalue]

/-- The packed bytes have room for the digits. -/
theorem pow_packedBytes (n bits : Nat) : ∃ r, 256 ^ packedBytes n bits = (2 ^ bits) ^ n * r := by
  refine ⟨2 ^ (8 * packedBytes n bits - bits * n), ?_⟩
  rw [show (256 : Nat) = 2 ^ 8 by norm_num, ← Nat.pow_mul, ← Nat.pow_mul, ← Nat.pow_add]
  congr 1
  unfold packedBytes
  rw [Nat.mul_comm bits]
  omega

/-- **Bit packing round trip.** -/
theorem unpack_pack {bits : Nat} (hbits : bits ≤ kMaxPackedBits) {values : List UInt64}
    (hfit : ∀ v ∈ values, v.toNat < 2 ^ bits) (rest : Bytes) :
    unpack (pack values bits ++ rest) values.length bits = some (values, rest) := by
  unfold unpack pack
  split_ifs with hzero hshort
  · -- values of no bits are all zero, and nothing is stored
    have hall : values = List.replicate values.length 0 := by
      refine List.eq_replicate_of_mem (fun v hv => ?_)
      have hlt := hfit v hv
      rw [hzero] at hlt
      exact UInt64.toNat_inj.mp (Nat.lt_one_iff.mp hlt)
    rw [← hall]
    rfl
  · obtain ⟨hlen, _⟩ := packFrom_spec hbits values 0 0 (by norm_num) (by norm_num)
    rw [List.length_append, hlen, Nat.zero_add] at hshort
    unfold packedBytes at hshort
    omega
  · obtain ⟨hlen, hvalue⟩ := packFrom_spec hbits values 0 0 (by norm_num) (by norm_num)
    rw [Nat.zero_add] at hlen
    have hdigits : values.map (fun v => v.toNat % 2 ^ bits) = values.map UInt64.toNat :=
      List.map_congr_left (fun v hv => Nat.mod_eq_of_lt (hfit v hv))
    have hread := unpackFrom_spec hbits values.length (packFrom bits values 0 0 ++ rest) 0 0 (by norm_num) (by norm_num)
    obtain ⟨r, hr⟩ := pow_packedBytes values.length bits
    unfold streamValue at hread
    rw [LittleEndian.value_append, hvalue, hdigits, hlen, show (values.length * bits + 7) / 8 = packedBytes _ _ from rfl,
      hr] at hread
    have hds : ∀ d ∈ values.map UInt64.toNat, d < 2 ^ bits := by
      intro d hd
      obtain ⟨v, hv, rfl⟩ := List.mem_map.mp hd
      exact hfit v hv
    -- the bytes behind the packed ones are above the digits that are read
    have hround := Digits.digits_ofDigits hds (r * LittleEndian.value rest)
    rw [List.length_map] at hround
    have hsame : (unpackFrom bits values.length (packFrom bits values 0 0 ++ rest) 0 0).map UInt64.toNat =
        values.map UInt64.toNat := by
      rw [hread]
      simpa [Nat.mul_assoc] using hround
    have hvalues := List.map_injective_iff.mpr (fun _ _ => UInt64.toNat_inj.mp) hsame
    rw [hvalues, packedBytes, ← hlen, List.drop_left]

/-! ## Raw blocks -/

@[simp] theorem length_rawBytes (v : UInt64) : (rawBytes v).length = 8 := by simp [rawBytes]

/-- The eight bytes of a residual are its digits. -/
theorem rawBytes_eq (v : UInt64) : rawBytes v = LittleEndian.bytes 8 v.toNat := by
  have hbyte : ∀ b < 8, ((v >>> UInt64.ofNat (8 * b)) &&& 0xFF).toUInt8 = UInt8.ofNat (v.toNat / 2 ^ (8 * b) % 256) := by
    intro b hb
    apply UInt8.toNat_inj.mp
    have hcount : (UInt64.ofNat (8 * b)).toNat % 64 = 8 * b := by
      rw [UInt64.toNat_ofNat']
      omega
    rw [toNat_low_byte, UInt64.toNat_shiftRight, hcount, Nat.shiftRight_eq_div_pow, UInt8.toNat_ofNat']
    omega
  have hdigits : ∀ (n x : Nat), LittleEndian.bytes n x =
      (List.range n).map (fun b => UInt8.ofNat (x / 2 ^ (8 * b) % 256)) := by
    intro n
    induction n with
    | zero => intro x; rfl
    | succ n ih =>
        intro x
        have hrest := ih (x / 256)
        unfold LittleEndian.bytes at hrest ⊢
        rw [Digits.digits, List.map_cons, hrest, List.range_succ_eq_map, List.map_cons, List.map_map]
        congr 1
        · simp
        · refine List.map_congr_left (fun b _ => ?_)
          have hpow : 2 ^ (8 * (b + 1)) = 256 * 2 ^ (8 * b) := by
            rw [Nat.mul_add, Nat.pow_add, Nat.mul_comm]
          rw [Function.comp_apply, hpow, Nat.div_div_eq_div_mul]
  rw [hdigits, rawBytes]
  exact List.map_congr_left (fun b hb => hbyte b (List.mem_range.mp hb))

/-- Or-ing the bytes of a word together gives the word. -/
theorem toNat_rawWordFrom (b : Nat) (p : Bytes) (h : b + p.length ≤ 8) :
    (rawWordFrom b p).toNat = 2 ^ (8 * b) * LittleEndian.value p := by
  induction p generalizing b with
  | nil => simp [rawWordFrom]
  | cons byte p ih =>
      rw [List.length_cons] at h
      have hrest := ih (b + 1) (by omega)
      have hcount : (UInt64.ofNat (8 * b)).toNat % 64 = 8 * b := by
        rw [UInt64.toNat_ofNat']
        omega
      have hbyte : byte.toNat < 2 ^ 8 := byte.toNat_lt
      have hfit : byte.toNat * 2 ^ (8 * b) < 2 ^ 64 := by
        calc byte.toNat * 2 ^ (8 * b) < 2 ^ 8 * 2 ^ (8 * b) := Nat.mul_lt_mul_of_pos_right hbyte (Nat.two_pow_pos _)
          _ = 2 ^ (8 + 8 * b) := by rw [Nat.pow_add]
          _ ≤ 2 ^ 64 := Nat.pow_le_pow_right (by norm_num) (by omega)
      have hlow : (byte.toUInt64 <<< UInt64.ofNat (8 * b)).toNat = byte.toNat * 2 ^ (8 * b) := by
        rw [UInt64.toNat_shiftLeft, hcount, UInt8.toNat_toUInt64, Nat.shiftLeft_eq, Nat.mod_eq_of_lt hfit]
      have hpow : 2 ^ (8 * (b + 1)) = 2 ^ (8 * b) * 256 := by rw [Nat.mul_add, Nat.pow_add]
      have hlt : byte.toNat * 2 ^ (8 * b) < 2 ^ (8 * (b + 1)) := by
        rw [Nat.mul_comm, hpow]
        exact Nat.mul_lt_mul_of_pos_left hbyte (Nat.two_pow_pos _)
      have hshift : 2 ^ (8 * (b + 1)) * LittleEndian.value p = LittleEndian.value p <<< (8 * (b + 1)) := by
        rw [Nat.shiftLeft_eq, Nat.mul_comm]
      rw [rawWordFrom, UInt64.toNat_or, hrest, hlow, hshift, Digits.or_shiftLeft hlt, LittleEndian.value_cons, hpow]
      ring

theorem rawWords_rawBytes (values : List UInt64) (rest : Bytes) :
    rawWords values.length (values.flatMap rawBytes ++ rest) = values ∧
      (values.flatMap rawBytes).length = values.length * 8 := by
  induction values with
  | nil => exact ⟨rfl, rfl⟩
  | cons v values ih =>
      have hword : rawWordFrom 0 (rawBytes v) = v := by
        apply UInt64.toNat_inj.mp
        rw [toNat_rawWordFrom 0 _ (by simp), rawBytes_eq, LittleEndian.value_bytes]
        have := v.toNat_lt
        omega
      have htake : (rawBytes v ++ (values.flatMap rawBytes ++ rest)).take 8 = rawBytes v := List.take_left' (by simp)
      have hdrop : (rawBytes v ++ (values.flatMap rawBytes ++ rest)).drop 8 = values.flatMap rawBytes ++ rest :=
        List.drop_left' (by simp)
      constructor
      · rw [List.flatMap_cons, List.append_assoc, List.length_cons, rawWords, htake, hdrop, hword, ih.1]
      · rw [List.flatMap_cons, List.length_append, ih.2, length_rawBytes, List.length_cons, Nat.succ_mul, Nat.add_comm]

/-! ## Bit widths -/

theorem bitsForFrom_spec (k : Nat) (range : UInt64) (h : range.toNat < 2 ^ k) :
    bitsForFrom k range ≤ k ∧ range.toNat < 2 ^ bitsForFrom k range := by
  induction k generalizing range with
  | zero => exact ⟨Nat.le_refl _, h⟩
  | succ k ih =>
      unfold bitsForFrom
      split_ifs with hzero
      · rw [hzero]
        exact ⟨Nat.zero_le _, by norm_num⟩
      · have hhalf : (range >>> 1).toNat = range.toNat / 2 := by
          rw [UInt64.toNat_shiftRight]
          exact Nat.shiftRight_eq_div_pow _ _
        obtain ⟨hle, hlt⟩ := ih (range >>> 1) (by rw [hhalf]; rw [Nat.pow_succ] at h; omega)
        rw [hhalf] at hlt
        refine ⟨by omega, ?_⟩
        rw [Nat.add_comm, Nat.pow_succ]
        omega

theorem toNat_lt_bitsFor (range : UInt64) : range.toNat < 2 ^ bitsFor range :=
  (bitsForFrom_spec 64 range range.toNat_lt).2

/-- A running maximum bounds what it has run over. -/
theorem le_foldl_max (vs : List UInt64) (x : UInt64) : x ≤ vs.foldl max x ∧ ∀ v ∈ vs, v ≤ vs.foldl max x := by
  induction vs generalizing x with
  | nil => exact ⟨UInt64.le_refl x, by simp⟩
  | cons w vs ih =>
      have hmax : x ≤ max x w ∧ w ≤ max x w := by
        show x ≤ (if x ≤ w then w else x) ∧ w ≤ (if x ≤ w then w else x)
        split_ifs with hle
        · exact ⟨hle, UInt64.le_refl w⟩
        · exact ⟨UInt64.le_refl x, UInt64.le_of_lt (UInt64.not_le.mp hle)⟩
      obtain ⟨hfold, hall⟩ := ih (max x w)
      refine ⟨UInt64.le_trans hmax.1 hfold, fun v hv => ?_⟩
      rcases List.mem_cons.mp hv with rfl | hv
      · exact UInt64.le_trans hmax.2 hfold
      · exact hall v hv

/-! ## The common divisor -/

theorem toNat_gcdOf (a b : UInt64) : (gcdOf a b).toNat = Nat.gcd b.toNat a.toNat := by
  induction a, b using gcdOf.induct with
  | case1 a => 
    rw [gcdOf, if_pos rfl]
    simp
  | case2 a b hb ih =>
    rw [gcdOf, if_neg hb, ih, UInt64.toNat_mod]
    exact (Nat.gcd_rec b.toNat a.toNat).symm

/-- Two's complement. -/
theorem toInt_eq_cond (d : Int64) : d.toInt =
    if d.toUInt64.toNat < 2 ^ 63 then (d.toUInt64.toNat : Int) else (d.toUInt64.toNat : Int) - 2 ^ 64 := by
  have h := BitVec.toInt_eq_toNat_cond d.toBitVec
  have hnat : d.toBitVec.toNat = d.toUInt64.toNat := rfl
  rw [hnat] at h
  show d.toBitVec.toInt = _
  rw [h]
  norm_num
  split_ifs <;> omega

theorem toNat_magnitude (d : Int64) : (magnitude d).toNat = d.toInt.natAbs := by
  have hint := toInt_eq_cond d
  have hlt := d.toUInt64.toNat_lt
  have hneg : d < 0 ↔ d.toInt < 0 := Int64.lt_iff_toInt_lt
  rw [hint] at hneg
  rw [hint]
  unfold magnitude
  by_cases hsmall : d.toUInt64.toNat < 2 ^ 63
  · rw [if_pos hsmall] at hneg ⊢
    rw [if_neg (fun hd => by have := hneg.mp hd; omega)]
    rfl
  · rw [if_neg hsmall] at hneg ⊢
    rw [if_pos (hneg.mpr (by omega)), UInt64.toNat_add, UInt64.toNat_not, show (1 : UInt64).toNat = 1 from rfl,
      show UInt64.size = 2 ^ 64 from rfl]
    omega

theorem divisorFrom_dvd (ds : List Int64) (scale : UInt64) :
    (divisorFrom scale ds).toNat ∣ scale.toNat ∧ ∀ d ∈ ds, (divisorFrom scale ds).toNat ∣ d.toInt.natAbs := by
  induction ds generalizing scale with
  | nil => exact ⟨Nat.dvd_refl _, by simp⟩
  | cons d ds ih =>
      unfold divisorFrom
      split_ifs with hone
      · rw [hone]
        exact ⟨Nat.one_dvd _, fun _ _ => Nat.one_dvd _⟩
      · obtain ⟨hscale, hall⟩ := ih (gcdOf scale (magnitude d))
        rw [toNat_gcdOf, toNat_magnitude] at hscale
        refine ⟨hscale.trans (Nat.gcd_dvd_right _ _), fun e he => ?_⟩
        rcases List.mem_cons.mp he with rfl | he
        · exact hscale.trans (Nat.gcd_dvd_left _ _)
        · exact hall e he

theorem scaleOf_spec (first : Int64) (rest : List Int64) : scaleOf first rest ≠ 0 ∧
    ∀ d ∈ rawDeltas first rest, (scaleOf first rest).toNat ∣ d.toInt.natAbs := by
  unfold scaleOf
  dsimp only
  split_ifs with hzero
  · exact ⟨by decide, fun _ _ => Nat.one_dvd _⟩
  · exact ⟨hzero, (divisorFrom_dvd _ 0).2⟩

/-- Dividing by the scale and multiplying with it again, both in wrapping arithmetic, changes nothing. A scale
    of `2 ^ 63` is negative as a divisor, and still divides. -/
theorem div_mul_scale {scale : UInt64} {d : Int64} (hdvd : scale.toNat ∣ d.toInt.natAbs) :
    ((d / scale.toInt64).toUInt64 * scale).toInt64 = d := by
  have hsigned : scale.toInt64.toInt ∣ d.toInt := by
    have hint := toInt_eq_cond scale.toInt64
    have hnat : scale.toInt64.toUInt64.toNat = scale.toNat := rfl
    have hd : d.toInt.natAbs ≤ 2 ^ 63 := by
      have hlo := d.le_toInt
      have hhi := d.toInt_lt
      omega
    rw [hnat] at hint
    rw [hint]
    split_ifs with hsmall
    · exact Int.natAbs_dvd_natAbs.mp hdvd
    · rcases Nat.eq_zero_or_pos d.toInt.natAbs with hzero | hpos
      · rw [Int.natAbs_eq_zero.mp hzero]
        exact dvd_zero _
      · have hexact : scale.toNat = 2 ^ 63 := by
          have hle := Nat.le_of_dvd hpos hdvd
          omega
        rw [hexact] at hdvd ⊢
        refine Int.natAbs_dvd_natAbs.mp ?_
        norm_num at hdvd ⊢
        exact hdvd
  rw [UInt64.toInt64_mul, Int64.toInt64_toUInt64]
  apply Int64.toInt_inj.mp
  rw [Int64.toInt_mul, Int64.toInt_div, Int.bmod_mul_bmod, Int.tdiv_mul_cancel hsigned]
  exact Int64.toInt_bmod d

/-! ## Blocks and columns -/

/-- The stored form of a delta. -/
def scaled (scale : UInt64) (d : Int64) : Int64 := if scale = 1 then d else d / scale.toInt64

/-- One delta comes back from its residual. -/
theorem restore_delta {scale : UInt64} {d : Int64} (hdvd : scale.toNat ∣ d.toInt.natAbs) (minDelta : Int64) :
    (let delta := (((scaled scale d).toUInt64 - minDelta.toUInt64) + minDelta.toUInt64).toInt64
     if scale = 1 then delta else (delta.toUInt64 * scale).toInt64) = d := by
  have hback : ((scaled scale d).toUInt64 - minDelta.toUInt64) + minDelta.toUInt64 = (scaled scale d).toUInt64 :=
    UInt64.sub_add_cancel _ _
  rw [hback, Int64.toInt64_toUInt64]
  dsimp only
  unfold scaled
  split_ifs with hone
  · rfl
  · exact div_mul_scale hdvd

/-- The values of a block come back from its residuals. -/
theorem restoreValues_residuals {scale : UInt64} (minDelta : Int64) (vs : List Int64) (previous : Int64)
    (hdvd : ∀ d ∈ rawDeltas previous vs, scale.toNat ∣ d.toInt.natAbs) :
    restoreValues scale minDelta previous
      ((rawDeltas previous vs).map (fun d => (scaled scale d).toUInt64 - minDelta.toUInt64)) = vs := by
  induction vs generalizing previous with
  | nil => rfl
  | cons v vs ih =>
      have hdelta := restore_delta (hdvd (v - previous) (List.mem_cons_self ..)) minDelta
      dsimp only at hdelta
      rw [rawDeltas, List.map_cons, restoreValues]
      rw [hdelta, Int64.add_comm, Int64.sub_add_cancel, ih v (fun d hd => hdvd d (List.mem_cons_of_mem _ hd))]

@[simp] theorem length_rawDeltas (previous : Int64) (vs : List Int64) : (rawDeltas previous vs).length = vs.length := by
  induction vs generalizing previous with
  | nil => rfl
  | cons v vs ih => simp [rawDeltas, ih]

theorem take_rawDeltas (n : Nat) (previous : Int64) (vs : List Int64) :
    (rawDeltas previous vs).take n = rawDeltas previous (vs.take n) := by
  induction vs generalizing previous n with
  | nil => simp [rawDeltas]
  | cons v vs ih =>
      cases n with
      | zero => rfl
      | succ n => rw [rawDeltas, List.take_succ_cons, List.take_succ_cons, rawDeltas, ih]

/-- The deltas of the blocks to come start from the last value of this one. -/
theorem drop_rawDeltas (n : Nat) (previous : Int64) (vs : List Int64) :
    (rawDeltas previous vs).drop n = rawDeltas ((vs.take n).getLastD previous) (vs.drop n) := by
  induction vs generalizing previous n with
  | nil => simp [rawDeltas]
  | cons v vs ih =>
      cases n with
      | zero => rfl
      | succ n =>
          rw [rawDeltas, List.drop_succ_cons, List.drop_succ_cons, ih, List.take_succ_cons]
          congr 1
          cases hrest : vs.take n with
          | nil => rfl
          | cons w ws => rw [List.getLastD_cons, List.getLastD_cons, List.getLastD_cons]

/-- The residuals of a block are read back. -/
theorem readResiduals_spec (residuals : List UInt64) (rest : Bytes) :
    let bits := if kMaxPackedBits < bitsFor (residuals.foldl max 0) then 64 else bitsFor (residuals.foldl max 0)
    bits ≤ 64 ∧
    readResiduals ((if bits = 64 then residuals.flatMap rawBytes else pack residuals bits) ++ rest) residuals.length
      bits = some (residuals, rest) := by
  have hwide := bitsForFrom_spec 64 (residuals.foldl max 0) (residuals.foldl max 0).toNat_lt
  dsimp only
  unfold readResiduals
  by_cases hraw : kMaxPackedBits < bitsFor (residuals.foldl max 0)
  · obtain ⟨hwords, hlen⟩ := rawWords_rawBytes residuals rest
    rw [if_pos hraw, if_pos rfl, if_pos rfl]
    refine ⟨Nat.le_refl _, ?_⟩
    rw [if_neg (by rw [List.length_append, hlen]; omega), hwords, ← hlen, List.drop_left]
  · have hne : bitsFor (residuals.foldl max 0) ≠ 64 := by
      unfold kMaxPackedBits at hraw
      omega
    rw [if_neg hraw, if_neg hne, if_neg hne, if_neg hraw]
    refine ⟨hwide.1, unpack_pack (Nat.le_of_not_lt hraw) (fun v hv => ?_) rest⟩
    have hle : v.toNat ≤ (residuals.foldl max 0).toNat := (le_foldl_max residuals 0).2 v hv
    exact Nat.lt_of_le_of_lt hle (toNat_lt_bitsFor _)

/-- **The block loop reads back what the block loop wrote.** -/
theorem decodeBlocks_encodeBlocks {scale : UInt64} (rest : Bytes) (blocks : Nat) (vs : List Int64) (previous : Int64)
    (hblocks : blocks = blockCount vs.length)
    (hdvd : ∀ d ∈ rawDeltas previous vs, scale.toNat ∣ d.toInt.natAbs) :
    decodeBlocks scale blocks vs.length previous (encodeBlocks scale blocks (rawDeltas previous vs) ++ rest) =
      some (vs, rest) := by
  induction blocks generalizing vs previous with
  | zero =>
      have hempty : vs = [] := by
        refine List.length_eq_zero_iff.mp ?_
        unfold blockCount kCodecBlock at hblocks
        omega
      rw [hempty]
      rfl
  | succ blocks ih =>
      -- the deltas of the first block are those of its values, the others start from its last value
      have hlen : (vs.take kCodecBlock).length = min kCodecBlock vs.length := List.length_take
      have hnext : blocks = blockCount (vs.drop kCodecBlock).length := by
        rw [List.length_drop]
        unfold blockCount kCodecBlock at hblocks ⊢
        omega
      have hrest := ih (vs.drop kCodecBlock) ((vs.take kCodecBlock).getLastD previous) hnext (fun d hd =>
        hdvd d (by rw [← drop_rawDeltas] at hd; exact List.mem_of_mem_drop hd))
      have hdvd' : ∀ d ∈ rawDeltas previous (vs.take kCodecBlock), scale.toNat ∣ d.toInt.natAbs := fun d hd =>
        hdvd d (by rw [← take_rawDeltas] at hd; exact List.mem_of_mem_take hd)
      rw [encodeBlocks, take_rawDeltas, drop_rawDeltas, List.append_assoc]
      generalize encodeBlocks scale blocks _ ++ rest = more at hrest
      unfold encodeBlock decodeBlocks
      dsimp only
      rw [List.append_assoc, getVarint_put]
      have hmap : (rawDeltas previous (vs.take kCodecBlock)).map
          (fun d => if scale = 1 then d else d / scale.toInt64) =
            (rawDeltas previous (vs.take kCodecBlock)).map (scaled scale) := rfl
      rw [hmap]
      -- any minimum will do: the subtraction wraps, and so does the addition that undoes it
      generalize ((rawDeltas previous (vs.take kCodecBlock)).map (scaled scale)).foldl min Int64.maxValue = minDelta
      have hvalues := restoreValues_residuals minDelta (vs.take kCodecBlock) previous hdvd'
      rw [List.map_map, Function.comp_def]
      generalize hres : (rawDeltas previous (vs.take kCodecBlock)).map
        (fun d => (scaled scale d).toUInt64 - minDelta.toUInt64) = residuals at hvalues ⊢
      have hcount : residuals.length = min kCodecBlock vs.length := by
        rw [← hres, List.length_map, length_rawDeltas, hlen]
      obtain ⟨hbits, hread⟩ := readResiduals_spec residuals more
      generalize (if kMaxPackedBits < bitsFor (residuals.foldl max 0) then 64
        else bitsFor (residuals.foldl max 0)) = bits at hbits hread ⊢
      have hbyte : (UInt8.ofNat bits).toNat = bits := by
        rw [UInt8.toNat_ofNat']
        omega
      rw [hcount] at hread
      simp only [Option.bind_eq_bind, Option.bind_some, List.cons_append, hbyte]
      rw [if_neg (Nat.not_lt.mpr hbits), hread]
      simp only [Option.bind_some, unzigzag_zigzag, hvalues]
      have hremaining : vs.length - min kCodecBlock vs.length = (vs.drop kCodecBlock).length := by
        rw [List.length_drop]
        omega
      rw [hremaining, hrest]
      simp

/-- The column comes back, with what follows it left to read. -/
theorem readColumn_encodeColumn {values : List Int64} (hsize : values.length < 2 ^ 64) (rest : Bytes) :
    readColumn (encodeColumn values ++ rest) = some (values, rest) := by
  have hcount : (UInt64.ofNat values.length).toNat = values.length := by
    rw [UInt64.toNat_ofNat']
    omega
  unfold encodeColumn readColumn
  rw [List.append_assoc, getVarint_put]
  simp only [Option.bind_eq_bind, Option.bind_some]
  cases values with
  | nil => rfl
  | cons first vs =>
      obtain ⟨hscale, hdvd⟩ := scaleOf_spec first vs
      have hpos : UInt64.ofNat (first :: vs).length ≠ 0 := by
        intro hzero
        rw [hzero] at hcount
        cases hcount
      have hblocks := decodeBlocks_encodeBlocks rest _ vs first rfl hdvd
      rw [if_neg hpos]
      rw [List.append_assoc, getVarint_put]
      simp only [Option.bind_some]
      rw [List.append_assoc, getVarint_put]
      simp only [Option.bind_some]
      rw [if_neg hscale, hcount, List.length_cons, Nat.add_sub_cancel, unzigzag_zigzag, hblocks]
      rfl

/-- **Column codec round trip.** Whatever the values, wrapping deltas included, and whatever follows, decoding
    consumes exactly what encoding wrote and gives the values back. The count is a `std::size_t`. -/
theorem column_codec_round_trip {values : List Int64} (hsize : values.length < 2 ^ 64) (suffix : Bytes) :
    decodeColumn (encodeColumn values ++ suffix) = some ((encodeColumn values).length, values) := by
  unfold decodeColumn
  rw [readColumn_encodeColumn hsize]
  simp

/-- Deltas that overflow. -/
theorem column_codec_round_trip_extremes :
    decodeColumn (encodeColumn [Int64.minValue, Int64.maxValue, 0, Int64.minValue] ++ [0x80]) =
      some ((encodeColumn [Int64.minValue, Int64.maxValue, 0, Int64.minValue]).length,
        [Int64.minValue, Int64.maxValue, 0, Int64.minValue]) :=
  column_codec_round_trip (by decide) _

end Volforge
