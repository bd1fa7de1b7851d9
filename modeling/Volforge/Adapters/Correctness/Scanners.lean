import Volforge.Adapters.GfdlCsv

/-!
# `Adapters.Correctness.Scanners` — scanners on numbers that are written out

A scanner reads digits up to the first byte that is none. `decimal` writes a number without leading zeros, `twoDigits`
with one; a scanner reads either back.
-/

namespace Volforge.Gfdl

/-! ## Writing -/

def digit (d : Nat) : UInt8 := chr (Nat.digitChar d)

/-- A number in decimal, without leading zeros. -/
def decimal (n : Nat) : Bytes := (Nat.toDigits 10 n).map chr

/-- A number below 100, with a leading zero where it has one digit. -/
def twoDigits (n : Nat) : Bytes := [digit (n / 10), digit (n % 10)]

theorem digit_spec : ∀ d < 10, isDigit (digit d) = true ∧ digitOf (digit d) = d ∧ digit d ≠ chr '.' := by decide

theorem isDigit_digit {d : Nat} (h : d < 10) : isDigit (digit d) = true := (digit_spec d h).1

theorem digitOf_digit {d : Nat} (h : d < 10) : digitOf (digit d) = d := (digit_spec d h).2.1

theorem digit_ne_dot {d : Nat} (h : d < 10) : digit d ≠ chr '.' := (digit_spec d h).2.2

/-- Every digit is that of a number. -/
theorem exists_digit {c : UInt8} (h : isDigit c = true) : ∃ d < 10, c = digit d := by
  unfold isDigit at h
  rw [Bool.and_eq_true, decide_eq_true_eq, decide_eq_true_eq, UInt8.le_iff_toNat_le, UInt8.le_iff_toNat_le] at h
  obtain ⟨hlow, hhigh⟩ := h
  have hlow : 48 ≤ c.toNat := hlow
  have hhigh : c.toNat ≤ 57 := hhigh
  refine ⟨c.toNat - 48, by omega, UInt8.toNat_inj.mp ?_⟩
  generalize c.toNat = n at hlow hhigh
  interval_cases n <;> rfl

theorem twoDigits_digitOf {a b : UInt8} (ha : isDigit a = true) (hb : isDigit b = true) :
    ∃ n < 100, [a, b] = twoDigits n ∧ digitOf a * 10 + digitOf b = n := by
  obtain ⟨d, hd, rfl⟩ := exists_digit ha
  obtain ⟨e, he, rfl⟩ := exists_digit hb
  refine ⟨d * 10 + e, by omega, ?_, ?_⟩
  · unfold twoDigits
    rw [show (d * 10 + e) / 10 = d by omega, show (d * 10 + e) % 10 = e by omega]
  · rw [digitOf_digit hd, digitOf_digit he]

/-- The last digit comes off the end. -/
theorem decimal_eq (n : Nat) : decimal n = (if n < 10 then [] else decimal (n / 10)) ++ [digit (n % 10)] := by
  unfold decimal
  rw [Nat.toDigits_eq_if (by norm_num)]
  split
  case isTrue h =>
    rw [Nat.mod_eq_of_lt h]
    rfl
  case isFalse =>
    rw [List.map_append]
    rfl

theorem all_decimal (n : Nat) : (decimal n).all isDigit = true := by
  induction n using Nat.strong_induction_on with
  | _ n ih =>
      rw [decimal_eq, List.all_append, Bool.and_eq_true]
      refine ⟨?_, by simp [isDigit_digit (Nat.mod_lt n (by norm_num : 10 > 0))]⟩
      split
      · rfl
      · exact ih (n / 10) (by omega)

theorem decimal_ne_nil (n : Nat) : decimal n ≠ [] := by
  rw [decimal_eq]
  simp

theorem digitsValue_concat (s : Bytes) (c : UInt8) : digitsValue (s ++ [c]) = digitsValue s * 10 + digitOf c := by
  unfold digitsValue
  rw [List.foldl_append]
  rfl

/-- Reading what was written. -/
theorem digitsValue_decimal (n : Nat) : digitsValue (decimal n) = n := by
  induction n using Nat.strong_induction_on with
  | _ n ih =>
      rw [decimal_eq, digitsValue_concat, digitOf_digit (Nat.mod_lt n (by norm_num))]
      split
      case isTrue h =>
        rw [Nat.mod_eq_of_lt h]
        exact Nat.zero_add n
      case isFalse =>
        rw [ih (n / 10) (by omega)]
        omega

/-! ## Reading -/

/-- What follows a number. -/
def StopsDigits (rest : Bytes) : Prop := ∀ c ∈ rest.head?, isDigit c = false

/-- The digits of a number, accumulated in 64 bits. -/
theorem scanDigits_append {s rest : Bytes} (hs : s.all isDigit = true) (hrest : StopsDigits rest) (n : Nat) :
    scanDigits (Int64.ofNat n) (s ++ rest) = (Int64.ofNat (s.foldl (fun v c => v * 10 + digitOf c) n), rest) := by
  induction s generalizing n with
  | nil =>
      cases rest with
      | nil => rfl
      | cons c rest =>
          have hc : isDigit c = false := hrest c rfl
          rw [List.nil_append, scanDigits, hc]
          rfl
  | cons c s ih =>
      rw [List.all_cons, Bool.and_eq_true] at hs
      have hnext : Int64.ofNat n * 10 + Int64.ofNat (digitOf c) = Int64.ofNat (n * 10 + digitOf c) := by
        rw [Int64.ofNat_add, Int64.ofNat_mul]
        rfl
      rw [List.cons_append, scanDigits, if_pos hs.1, hnext]
      exact ih hs.2 _

theorem scanDigits_zero {s rest : Bytes} (hs : s.all isDigit = true) (hrest : StopsDigits rest) :
    scanDigits 0 (s ++ rest) = (Int64.ofNat (digitsValue s), rest) :=
  scanDigits_append hs hrest 0

/-- Digits have no sign. -/
theorem scanSign_digits {s : Bytes} (hs : s.all isDigit = true) : scanSign s = (false, s) := by
  cases s with
  | nil => rfl
  | cons c s =>
      rw [List.all_cons, Bool.and_eq_true] at hs
      have hc : ¬ (c = chr '-' ∨ c = chr '+') := by
        rintro (rfl | rfl)
        · exact absurd hs.1 (by decide)
        · exact absurd hs.1 (by decide)
      rw [scanSign, if_neg hc]

/-- A price in whole units. -/
theorem scanPriceMinor_digits {s : Bytes} (hs : s.all isDigit = true) :
    (scanPriceMinor s).1 = (Int64.ofNat (digitsValue s * 100)).toInt32 := by
  have hdigits := @scanDigits_zero s [] hs nofun
  rw [List.append_nil] at hdigits
  unfold scanPriceMinor
  rw [scanSign_digits hs]
  dsimp only
  rw [hdigits, Int64.ofNat_mul]
  simp [scanFraction]

end Volforge.Gfdl
