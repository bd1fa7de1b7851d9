import Mathlib.Tactic
import Mathlib.Data.Nat.Digits.Defs

/-!
# `Lib.Digits` — fixed-width positional notation and byte strings

`Nat.ofDigits` reads a list of digits, least significant first; `digits b n x` writes the `n` low digits of
`x`, leading zeros included. Between the two there is a round trip in each direction. Bytes are digits in
base 256: `LittleEndian.value` reads a byte string and `LittleEndian.bytes w x` writes `w` bytes.

## Contents
- **Digits.** Fixed-width digits and their round trips.
- **Bytes.** Little-endian byte strings.
- **Bit operations.** Or-ing in a value above the bits in use is an addition, a mask is a remainder.
-/

namespace Digits

/-! ## Digits -/

/-- The `n` low digits of `x` in base `b`, least significant first. -/
def digits (b : Nat) : Nat → Nat → List Nat
  | 0, _ => []
  | n + 1, x => x % b :: digits b n (x / b)

@[simp] theorem length_digits (b n x : Nat) : (digits b n x).length = n := by
  induction n generalizing x with
  | zero => rfl
  | succ n ih => simp [digits, ih]

/-- Writing what was read, with anything above it. -/
theorem digits_ofDigits {b : Nat} {ds : List Nat} (hds : ∀ d ∈ ds, d < b) (r : Nat) :
    digits b ds.length (Nat.ofDigits b ds + b ^ ds.length * r) = ds := by
  induction ds generalizing r with
  | nil => rfl
  | cons d ds ih =>
      have hd : d < b := hds d (List.mem_cons_self ..)
      have hb : 0 < b := by omega
      have hsplit : Nat.ofDigits b (d :: ds) + b ^ (ds.length + 1) * r =
          d + b * (Nat.ofDigits b ds + b ^ ds.length * r) := by
        rw [Nat.ofDigits_cons, Nat.pow_succ]
        ring
      rw [List.length_cons, digits, hsplit, Nat.add_mul_mod_self_left, Nat.mod_eq_of_lt hd,
        Nat.add_mul_div_left _ _ hb, Nat.div_eq_of_lt hd, Nat.zero_add,
        ih (fun d' hd' => hds d' (List.mem_cons_of_mem _ hd'))]

/-- What is above the digits does not matter. -/
theorem digits_add_mul {b : Nat} (hb : 0 < b) (n x r : Nat) : digits b n (x + b ^ n * r) = digits b n x := by
  induction n generalizing x with
  | zero => rfl
  | succ n ih =>
      have hsplit : x + b ^ (n + 1) * r = x + b * (b ^ n * r) := by
        rw [Nat.pow_succ]
        ring
      rw [hsplit, digits, digits, Nat.add_mul_mod_self_left, Nat.add_mul_div_left _ _ hb, ih]

/-- Reading what was written. -/
theorem ofDigits_digits (b n x : Nat) : Nat.ofDigits b (digits b n x) = x % b ^ n := by
  induction n generalizing x with
  | zero => simp [digits, Nat.mod_one]
  | succ n ih => rw [digits, Nat.ofDigits_cons, ih, Nat.pow_succ, Nat.mul_comm (b ^ n), Nat.mod_mul]

end Digits

/-! ## Bytes -/

namespace LittleEndian

/-- The number whose bytes, least significant first, are given. -/
def value (bs : List UInt8) : Nat := Nat.ofDigits 256 (bs.map UInt8.toNat)

@[simp] theorem value_nil : value [] = 0 := rfl

theorem value_cons (b : UInt8) (bs : List UInt8) : value (b :: bs) = b.toNat + 256 * value bs := by
  simp [value, Nat.ofDigits_cons]

theorem value_append (bs cs : List UInt8) : value (bs ++ cs) = value bs + 256 ^ bs.length * value cs := by
  simp [value, Nat.ofDigits_append]

theorem digit_lt (bs : List UInt8) : ∀ d ∈ bs.map UInt8.toNat, d < 256 := by
  intro d hd
  obtain ⟨b, _, rfl⟩ := List.mem_map.mp hd
  exact b.toNat_lt

theorem value_lt (bs : List UInt8) : value bs < 256 ^ bs.length := by
  have hlt := Nat.ofDigits_lt_base_pow_length (by norm_num : 1 < 256) (digit_lt bs)
  rwa [List.length_map] at hlt

/-- The `w` low bytes of a number. -/
def bytes (w x : Nat) : List UInt8 := (Digits.digits 256 w x).map UInt8.ofNat

@[simp] theorem length_bytes (w x : Nat) : (bytes w x).length = w := by simp [bytes]

theorem value_bytes (w x : Nat) : value (bytes w x) = x % 256 ^ w := by
  have hdigits : ∀ (n y : Nat), ((Digits.digits 256 n y).map UInt8.ofNat).map UInt8.toNat = Digits.digits 256 n y := by
    intro n
    induction n with
    | zero => intro y; rfl
    | succ n ih =>
        intro y
        have hlow : (UInt8.ofNat (y % 256)).toNat = y % 256 := by simp
        rw [Digits.digits, List.map_cons, List.map_cons, ih, hlow]
  rw [value, bytes, hdigits, Digits.ofDigits_digits]

theorem bytes_value (bs : List UInt8) : bytes bs.length (value bs) = bs := by
  have hdigits := Digits.digits_ofDigits (digit_lt bs) 0
  rw [Nat.mul_zero, Nat.add_zero, List.length_map] at hdigits
  rw [bytes, value, hdigits, List.map_map]
  have hid : UInt8.ofNat ∘ UInt8.toNat = id := by
    funext b
    simp
  rw [hid, List.map_id]

/-- Byte strings of one length are told apart by their value. -/
theorem value_inj {bs cs : List UInt8} (hlen : bs.length = cs.length) (h : value bs = value cs) : bs = cs := by
  rw [← bytes_value bs, ← bytes_value cs, hlen, h]

end LittleEndian

/-! ## Bit operations -/

namespace Digits

/-- Or-ing in a value above the bits in use adds it. -/
theorem or_shiftLeft {x k : Nat} (hx : x < 2 ^ k) (y : Nat) : x ||| (y <<< k) = x + 2 ^ k * y := by
  rw [Nat.or_comm, ← Nat.shiftLeft_add_eq_or_of_lt hx, Nat.shiftLeft_eq, Nat.mul_comm, Nat.add_comm]

/-- `n` bits above `m` bits take `m + n`. -/
theorem add_mul_lt {x y m n : Nat} (hx : x < 2 ^ m) (hy : y < 2 ^ n) : x + 2 ^ m * y < 2 ^ (m + n) := by
  have hmul := Nat.mul_le_mul_left (2 ^ m) (Nat.succ_le_of_lt hy)
  rw [Nat.mul_succ] at hmul
  rw [Nat.pow_add]
  omega

end Digits
