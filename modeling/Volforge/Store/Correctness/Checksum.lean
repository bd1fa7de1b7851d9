import Volforge.Lib.Crc
import Volforge.Store.Vfday

/-!
# `Store.Correctness.Checksum` — the table-driven checksum, bit by bit

`crc32` takes a byte at a time from its table. It is the cyclic redundancy check of `Lib.Crc` over the bits of the
bytes, lowest first, so it tells apart byte strings of one length that differ in a burst of at most 32 bits.

## Contents
- **Bits.** `bit` numbers the bits of a byte string; bytes are equal when all bits are.
- **The table.** One turn of each loop is `Crc.step` or `Crc.run`.
- **Main results.** `crc32_ne_of_close`, and its converse side: four bytes can be given any checksum.
-/

namespace Volforge

/-! ## Bits -/

/-- Bit `k` of a byte string; the bits of a byte are counted from the least significant one. -/
def bit (data : Bytes) (k : Nat) : Option Bool := (data[k / 8]?).map (fun b => b.toNat.testBit (k % 8))

def byteBits (b : UInt8) : List Bool := (List.range 8).map b.toNat.testBit

def bitsOf (data : Bytes) : List Bool := data.flatMap byteBits

theorem length_byteBits (b : UInt8) : (byteBits b).length = 8 := by
  rw [byteBits, List.length_map, List.length_range]

theorem getElem?_byteBits (b : UInt8) {k : Nat} (hk : k < 8) : (byteBits b)[k]? = some (b.toNat.testBit k) := by
  rw [byteBits, List.getElem?_map, List.getElem?_range hk]
  rfl

theorem length_bitsOf (data : Bytes) : (bitsOf data).length = data.length * 8 := by
  induction data with
  | nil => rfl
  | cons b data ih =>
      rw [bitsOf, List.flatMap_cons, List.length_append, length_byteBits, List.length_cons]
      rw [bitsOf] at ih
      omega

theorem getElem?_bitsOf (data : Bytes) (k : Nat) : (bitsOf data)[k]? = bit data k := by
  induction data generalizing k with
  | nil => rfl
  | cons b data ih =>
      rw [bitsOf, List.flatMap_cons]
      rcases Nat.lt_or_ge k 8 with hlow | hhigh
      · rw [List.getElem?_append_left (by rw [length_byteBits]; exact hlow), getElem?_byteBits b hlow, bit,
          Nat.div_eq_of_lt hlow, Nat.mod_eq_of_lt hlow]
        rfl
      · obtain ⟨j, rfl⟩ := Nat.exists_eq_add_of_le hhigh
        rw [List.getElem?_append_right (by rw [length_byteBits]; exact hhigh), length_byteBits, Nat.add_sub_cancel_left]
        have hrest := ih j
        rw [bitsOf] at hrest
        rw [hrest, bit, bit, show (8 + j) / 8 = j / 8 + 1 by omega, show (8 + j) % 8 = j % 8 by omega,
          List.getElem?_cons_succ]

theorem byte_ext {b b' : UInt8} (h : ∀ k < 8, b.toNat.testBit k = b'.toNat.testBit k) : b = b' := by
  apply UInt8.toNat_inj.mp
  apply Nat.eq_of_testBit_eq
  intro k
  rcases Nat.lt_or_ge k 8 with hlow | hhigh
  · exact h k hlow
  · have hle : 2 ^ 8 ≤ 2 ^ k := Nat.pow_le_pow_right (by decide) hhigh
    rw [Nat.testBit_lt_two_pow (lt_of_lt_of_le b.toNat_lt hle), Nat.testBit_lt_two_pow (lt_of_lt_of_le b'.toNat_lt hle)]

/-- The byte at `i`, when the bits there agree. -/
theorem getElem?_of_bits {data data' : Bytes} {i : Nat} (h : ∀ k < 8, bit data (8 * i + k) = bit data' (8 * i + k)) :
    data[i]? = data'[i]? := by
  have hbits : ∀ k < 8, (data[i]?).map (fun b => b.toNat.testBit k) = (data'[i]?).map (fun b => b.toNat.testBit k) := by
    intro k hk
    have hbit := h k hk
    rw [bit, bit, show (8 * i + k) / 8 = i by omega, show (8 * i + k) % 8 = k by omega] at hbit
    exact hbit
  cases hb : data[i]? with
  | none =>
      cases hb' : data'[i]? with
      | none => rfl
      | some b' =>
          have hzero := hbits 0 (by decide)
          rw [hb, hb'] at hzero
          cases hzero
  | some b =>
      cases hb' : data'[i]? with
      | none =>
          have hzero := hbits 0 (by decide)
          rw [hb, hb'] at hzero
          cases hzero
      | some b' =>
          congr 1
          apply byte_ext
          intro k hk
          have hbit := hbits k hk
          rw [hb, hb'] at hbit
          exact Option.some.inj hbit

theorem eq_of_bits {data data' : Bytes} (h : ∀ k, bit data k = bit data' k) : data = data' :=
  List.ext_getElem? (fun i => getElem?_of_bits (fun k _ => h (8 * i + k)))

/-- A bit of a region is a bit of the file. -/
theorem bit_region (file : Bytes) (start n k : Nat) :
    bit ((file.drop start).take n) k = if k / 8 < n then bit file (8 * start + k) else none := by
  unfold bit
  rw [show (8 * start + k) / 8 = start + k / 8 by omega, show (8 * start + k) % 8 = k % 8 by omega]
  split_ifs with hk
  · rw [List.getElem?_take_of_lt hk, List.getElem?_drop]
  · rw [List.getElem?_take_eq_none (by omega)]
    rfl

/-! ## The table -/

/-- The polynomial of the source, as a register. -/
def crcPoly : BitVec 32 := 0xEDB88320#32

theorem crcShift_toBitVec (c : UInt32) : (crcShift c).toBitVec = Crc.step crcPoly c.toBitVec := by
  have hlow : (c &&& 1 ≠ 0) ↔ c.toBitVec.getLsbD 0 = true := by
    rw [← not_iff_not, not_not, Bool.not_eq_true, ← UInt32.toBitVec_inj, UInt32.toBitVec_and]
    constructor
    · intro hzero
      have hbit := congrArg (fun v => v.getLsbD 0) hzero
      simpa using hbit
    · intro hbit
      apply BitVec.eq_of_getLsbD_eq
      intro i hi
      cases i with
      | zero => simpa using hbit
      | succ i => simp [BitVec.getLsbD_one]
  unfold crcShift Crc.step
  by_cases hbit : c.toBitVec.getLsbD 0 = true
  · rw [if_pos (hlow.mpr hbit), if_pos hbit]
    rfl
  · rw [if_neg (fun h => hbit (hlow.mp h)), if_neg hbit]
    rfl

theorem crcEntry_toBitVec (i : UInt32) : (crcEntry i).toBitVec = Crc.steps crcPoly 8 i.toBitVec := by
  unfold crcEntry
  simp only [crcShift_toBitVec]
  rfl

/-- A byte in the lowest places of the register. -/
theorem ofBits_byteBits (b : UInt8) : (Crc.ofBits (byteBits b) : BitVec 32) = b.toUInt32.toBitVec := by
  apply BitVec.eq_of_getLsbD_eq
  intro i hi
  have hbyte : b.toUInt32.toBitVec.getLsbD i = b.toNat.testBit i := rfl
  rw [Crc.getLsbD_ofBits _ _ hi, hbyte]
  rcases Nat.lt_or_ge i 8 with hlow | hhigh
  · rw [getElem?_byteBits b hlow, Option.getD_some]
  · have hle : 2 ^ 8 ≤ 2 ^ i := Nat.pow_le_pow_right (by decide) hhigh
    rw [List.getElem?_eq_none (by rw [length_byteBits]; exact hhigh), Option.getD_none,
      Nat.testBit_lt_two_pow (lt_of_lt_of_le b.toNat_lt hle)]

/-- The lowest byte of a register. -/
theorem getLsbD_lowByte (c : BitVec 32) (i : Nat) : (c &&& 0xFF#32).getLsbD i = (decide (i < 8) && c.getLsbD i) := by
  have hmask : (0xFF#32).getLsbD i = decide (i < 8) := by
    rcases Nat.lt_or_ge i 32 with hlt | hge
    · have hall : ∀ i < 32, (0xFF#32).getLsbD i = decide (i < 8) := by decide
      exact hall i hlt
    · rw [BitVec.getLsbD_of_ge _ _ hge]
      simp only [Bool.false_eq, decide_eq_false_iff_not]
      omega
  rw [BitVec.getLsbD_and, hmask, Bool.and_comm]

/-- One entry of the table does the work of eight bits. -/
theorem crcByte_toBitVec (c : UInt32) (b : UInt8) :
    (crcByte c b).toBitVec = Crc.run crcPoly c.toBitVec (byteBits b) := by
  have hlow : ∀ i < 8, (((c ^^^ b.toUInt32) &&& 0xFF).toBitVec).getLsbD i = ((c ^^^ b.toUInt32).toBitVec).getLsbD i := by
    intro i hi
    rw [UInt32.toBitVec_and]
    have hbit := getLsbD_lowByte (c ^^^ b.toUInt32).toBitVec i
    rw [decide_eq_true hi, Bool.true_and] at hbit
    exact hbit
  have hhigh : ((c ^^^ b.toUInt32) &&& 0xFF).toBitVec >>> 8 = 0#32 := by
    apply BitVec.eq_of_getLsbD_eq
    intro i hi
    have hbit := getLsbD_lowByte (c ^^^ b.toUInt32).toBitVec (8 + i)
    rw [decide_eq_false (by omega), Bool.false_and] at hbit
    rw [BitVec.getLsbD_ushiftRight, BitVec.getLsbD_zero, UInt32.toBitVec_and]
    exact hbit
  -- the byte only meets the lowest places
  have hbyte : (c ^^^ b.toUInt32).toBitVec >>> 8 = c.toBitVec >>> 8 := by
    have hclear : b.toUInt32.toBitVec >>> 8 = 0#32 := by
      apply BitVec.eq_of_toNat_eq
      have hlt := b.toNat_lt
      have hval : b.toUInt32.toBitVec.toNat = b.toNat := rfl
      rw [BitVec.toNat_ushiftRight, hval, Nat.shiftRight_eq_div_pow, Nat.div_eq_of_lt hlt]
      rfl
    rw [UInt32.toBitVec_xor, BitVec.ushiftRight_xor_distrib, hclear, BitVec.xor_zero]
  have hentry : (crcByte c b).toBitVec = Crc.steps crcPoly 8 ((c ^^^ b.toUInt32) &&& 0xFF).toBitVec ^^^ (c.toBitVec >>> 8) := by
    unfold crcByte
    rw [UInt32.toBitVec_xor, crcEntry_toBitVec]
    rfl
  have hshort : (byteBits b).length ≤ 32 := by
    rw [length_byteBits]
    decide
  rw [hentry, ← hbyte, ← Crc.steps_split crcPoly _ _ hlow hhigh, Crc.run_eq_steps crcPoly _ hshort, length_byteBits,
    ofBits_byteBits, UInt32.toBitVec_xor]

theorem foldl_crcByte_toBitVec (data : Bytes) (c : UInt32) :
    (data.foldl crcByte c).toBitVec = Crc.run crcPoly c.toBitVec (bitsOf data) := by
  induction data generalizing c with
  | nil => rfl
  | cons b data ih =>
      rw [List.foldl_cons, ih, crcByte_toBitVec, bitsOf, bitsOf, List.flatMap_cons, Crc.run_append]

/-- The checksum is the register after the bits, complemented. -/
theorem crc32_eq_iff {data data' : Bytes} : crc32 data = crc32 data' ↔
    Crc.run crcPoly 0xFFFFFFFF#32 (bitsOf data) = Crc.run crcPoly 0xFFFFFFFF#32 (bitsOf data') := by
  have hrun : ∀ data : Bytes, (data.foldl crcByte 0xFFFFFFFF).toBitVec = Crc.run crcPoly 0xFFFFFFFF#32 (bitsOf data) :=
    fun data => foldl_crcByte_toBitVec data 0xFFFFFFFF
  unfold crc32
  rw [UInt32.xor_left_inj, ← UInt32.toBitVec_inj, hrun, hrun]

/-- Differences of two byte strings, if any, are less than `n` bits apart. -/
def Close (n : Nat) (data data' : Bytes) : Prop :=
  ∀ i j, bit data i ≠ bit data' i → bit data j ≠ bit data' j → j < i + n

theorem Close.region {n : Nat} {data data' : Bytes} (h : Close n data data') (start size : Nat) :
    Close n ((data.drop start).take size) ((data'.drop start).take size) := by
  have hfile : ∀ k, bit ((data.drop start).take size) k ≠ bit ((data'.drop start).take size) k →
      bit data (8 * start + k) ≠ bit data' (8 * start + k) := by
    intro k hk
    rw [bit_region, bit_region] at hk
    split_ifs at hk
    · exact hk
    · exact absurd rfl hk
  intro i j hi hj
  have hlt := h _ _ (hfile i hi) (hfile j hj)
  omega

/-- **A burst of at most 32 bits changes the checksum.** -/
theorem crc32_ne_of_close {data data' : Bytes} (hlen : data.length = data'.length) (hclose : Close 32 data data')
    (hne : data ≠ data') : crc32 data ≠ crc32 data' := by
  rw [Ne, crc32_eq_iff]
  refine Crc.run_ne_of_burst crcPoly (by decide) _ (Crc.burst_of_close ?_ ?_) ?_
  · rw [length_bitsOf, length_bitsOf, hlen]
  · intro i j
    rw [getElem?_bitsOf, getElem?_bitsOf, getElem?_bitsOf, getElem?_bitsOf]
    exact hclose i j
  · intro hbits
    apply hne
    apply eq_of_bits
    intro k
    rw [← getElem?_bitsOf, ← getElem?_bitsOf, hbits]

end Volforge
