import Volforge.Adapters.Correctness.Rows
import Volforge.Adapters.Correctness.Scanners

/-!
# `Adapters.Correctness.Fields` — the format of a row, and what the scanners make of it

The format is stated on the fields of a line: each number is written out in full and fits where it is stored. The
scanners read a line of the format exactly. Of other lines they read something too: a number that is not there is zero,
a separator that is not there is passed over, and a number that does not fit is cut. What they take for a date and a
time is stated on the text as well.

## Contents
- **The format.** `strictRow`, field by field, and what its values are.
- **Numbers in front of a text.** `TakenAs`, the date and time that a line is taken for.
- **Fields.** A split line is its fields with separators between them.
- **Scanners.** They take a field of the format off the front of the text (`strictRow_spec`), and of any text the
  numbers that it begins with (`takenAs_iff`).
-/

namespace Volforge.Gfdl

/-! ## The format -/

/-- A date and a time of day, number by number. -/
structure Stamp where
  day : Int
  month : Int
  year : Int
  hour : Int
  minute : Int
  second : Int
deriving DecidableEq

namespace Stamp

def InRange (t : Stamp) : Prop :=
  (1990 ≤ t.year ∧ t.year ≤ 2100) ∧ (1 ≤ t.month ∧ t.month ≤ 12) ∧ (1 ≤ t.day ∧ t.day ≤ 31) ∧
    (0 ≤ t.hour ∧ t.hour ≤ 23) ∧ (0 ≤ t.minute ∧ t.minute ≤ 59) ∧ (0 ≤ t.second ∧ t.second ≤ 59)

instance (t : Stamp) : Decidable t.InRange := inferInstanceAs (Decidable (_ ∧ _))

def date (t : Stamp) : Date := ⟨Int32.ofInt (t.year * 10000 + t.month * 100 + t.day)⟩

/-- The instant, in nanoseconds: the day of the calendar, and the local time of day in it. -/
def instant (t : Stamp) (utcOffsetSeconds : Int) : Timestamp :=
  (daysFromCivil t.year t.month.toNat t.day.toNat * 86400 + (t.hour * 3600 + t.minute * 60 + t.second) -
    utcOffsetSeconds) * 1000000000

/-- In range, of the date of the day if there is one yet, and not before the row kept last. -/
def Due (t : Stamp) (options : GfdlLoadOptions) (day : Date) (previous : Option Timestamp) : Prop :=
  t.InRange ∧ (day.valid = true → t.date = day) ∧ ∀ p ∈ previous, p ≤ t.instant options.utcOffsetSeconds.toInt

instance (t : Stamp) (options : GfdlLoadOptions) (day : Date) (previous : Option Timestamp) :
    Decidable (t.Due options day previous) :=
  inferInstanceAs (Decidable (_ ∧ _))

end Stamp

/-- What the fields of a line say. Prices are in hundredths. -/
structure FieldValues where
  stamp : Stamp
  last : Int
  bid : Int
  bidQty : Int
  ask : Int
  askQty : Int
  lastQty : Int
  openInterest : Int
deriving DecidableEq

/-- Digits and nothing else. -/
def digitsField (s : Bytes) : Option Nat := if s ≠ [] ∧ s.all isDigit then some (digitsValue s) else none

/-- Digits, `n` of them. -/
def paddedField (n : Nat) (s : Bytes) : Option Nat := if s.length = n then digitsField s else none

/-- Three numbers of so many digits. -/
def tripleField (sep : Char) (a b c : Nat) (s : Bytes) : Option (Nat × Nat × Nat) :=
  match s.splitOn (chr sep) with
  | [x, y, z] => do return (← paddedField a x, ← paddedField b y, ← paddedField c z)
  | _ => none

/-- The first two digits of a fraction; those that are not there are zeros. -/
def centsOf (frac : Bytes) : Nat := digitsValue ((frac ++ [chr '0', chr '0']).take 2)

/-- A decimal number in hundredths, truncated: digits, and a point among them, before them or after them. -/
def centsField (s : Bytes) : Option Nat :=
  match s.splitOn (chr '.') with
  | [whole] => (digitsField whole).map (· * 100)
  | [whole, frac] =>
      if (whole ≠ [] ∨ frac ≠ []) ∧ whole.all isDigit ∧ frac.all isDigit then
        some (digitsValue whole * 100 + centsOf frac)
      else none
  | _ => none

/-- A number with an optional sign. -/
def signedField (number : Bytes → Option Nat) : Bytes → Option Int
  | [] => none
  | c :: p =>
      if c = chr '-' then (number p).map (fun v : Nat => -(v : Int))
      else if c = chr '+' then (number p).map Int.ofNat
      else (number (c :: p)).map Int.ofNat

/-- The value is one of so many bits. -/
def fits (bits : Nat) (v : Int) : Bool := -2 ^ (bits - 1) ≤ v && v < 2 ^ (bits - 1)

def priceField (s : Bytes) : Option Int := (signedField centsField s).filter (fits 32)

def countField (s : Bytes) : Option Int := (signedField digitsField s).filter (fits 32)

def interestField (s : Bytes) : Option Int := (signedField digitsField s).filter (fits 64)

/-- The values of a line that has the format: ten fields, and each of them a number in full. -/
def strictRow (line : Bytes) : Option FieldValues :=
  match line.splitOn (chr ',') with
  | [_, date, time, last, bid, bidQty, ask, askQty, lastQty, openInterest] => do
      let (dd, mm, yyyy) ← tripleField '/' 2 2 4 date
      let (hh, mi, ss) ← tripleField ':' 2 2 2 time
      let last ← priceField last
      let bid ← priceField bid
      let bidQty ← countField bidQty
      let ask ← priceField ask
      let askQty ← countField askQty
      let lastQty ← countField lastQty
      let openInterest ← interestField openInterest
      return {
        stamp := ⟨dd, mm, yyyy, hh, mi, ss⟩, last := last, bid := bid, bidQty := bidQty, ask := ask, askQty := askQty,
        lastQty := lastQty, openInterest := openInterest }
  | _ => none

namespace FieldValues

/-- The observation of a line. -/
def quote (v : FieldValues) (options : GfdlLoadOptions) : Quote where
  ts := v.stamp.instant options.utcOffsetSeconds.toInt
  last := v.last
  bid := v.bid
  ask := v.ask
  bidQty := v.bidQty
  askQty := v.askQty
  lastQty := v.lastQty
  openInterest := v.openInterest

/-- One row more, the values of the line in their columns. -/
def pushedOn (v : FieldValues) (options : GfdlLoadOptions) (c : QuoteColumns) : QuoteColumns where
  ts := c.ts ++ [Int64.ofInt (v.stamp.instant options.utcOffsetSeconds.toInt)]
  last := c.last ++ [Int32.ofInt v.last]
  bid := c.bid ++ [Int32.ofInt v.bid]
  ask := c.ask ++ [Int32.ofInt v.ask]
  bidQty := c.bidQty ++ [Int32.ofInt v.bidQty]
  askQty := c.askQty ++ [Int32.ofInt v.askQty]
  lastQty := c.lastQty ++ [Int32.ofInt v.lastQty]
  openInterest := c.openInterest ++ [Int64.ofInt v.openInterest]

/-- The values as they are stored. -/
def row (v : FieldValues) : CsvRow where
  dd := Int64.ofInt v.stamp.day
  mm := Int64.ofInt v.stamp.month
  yyyy := Int64.ofInt v.stamp.year
  hh := Int64.ofInt v.stamp.hour
  mi := Int64.ofInt v.stamp.minute
  ss := Int64.ofInt v.stamp.second
  last := Int32.ofInt v.last
  bid := Int32.ofInt v.bid
  bidQty := Int32.ofInt v.bidQty
  ask := Int32.ofInt v.ask
  askQty := Int32.ofInt v.askQty
  lastQty := Int32.ofInt v.lastQty
  openInterest := Int64.ofInt v.openInterest

end FieldValues

/-! ## Numbers in front of a text

A line that lacks the format is read all the same: the text is taken for as many numbers as there should be, however
few of their bytes are there. -/

/-- A number in front of a text: a sign, if there is one, and digits, however many, up to the first byte that is none. -/
inductive Begins : Bytes → Int → Bytes → Prop
  | minus {digits rest : Bytes} (all : digits.all isDigit = true) (stops : StopsDigits rest) :
      Begins (chr '-' :: (digits ++ rest)) (-(digitsValue digits : Int)) rest
  | plus {digits rest : Bytes} (all : digits.all isDigit = true) (stops : StopsDigits rest) :
      Begins (chr '+' :: (digits ++ rest)) (digitsValue digits) rest
  | unsigned {digits rest : Bytes} (all : digits.all isDigit = true) (stops : StopsDigits rest)
      (none_minus : (digits ++ rest).head? ≠ some (chr '-')) (none_plus : (digits ++ rest).head? ≠ some (chr '+')) :
      Begins (digits ++ rest) (digitsValue digits) rest

/-- Numbers one after the other. What stands between two of them is passed over if it is the separator. -/
inductive BeginsAll : List Char → Bytes → List Int → Prop
  | last {p rest : Bytes} {v : Int} (number : Begins p v rest) : BeginsAll [] p [v]
  | separated {sep : Char} {seps : List Char} {p rest : Bytes} {v : Int} {vs : List Int}
      (number : Begins p v (chr sep :: rest)) (others : BeginsAll seps rest vs) : BeginsAll (sep :: seps) p (v :: vs)
  | joined {sep : Char} {seps : List Char} {p rest : Bytes} {v : Int} {vs : List Int} (number : Begins p v rest)
      (none_there : rest.head? ≠ some (chr sep)) (others : BeginsAll seps rest vs) :
      BeginsAll (sep :: seps) p (v :: vs)

/-- What 64 bits hold of a number. -/
def wrap64 (v : Int) : Int := v.bmod (2 ^ 64)

/-- The line is taken for a row of this date and time: it has nine commas, and the six numbers follow the first. -/
def TakenAs (line : Bytes) (t : Stamp) : Prop :=
  line.count (chr ',') = 9 ∧ ∃ ticker body dd mm yyyy hh mi ss, line = ticker ++ chr ',' :: body ∧ chr ',' ∉ ticker ∧
    BeginsAll ['/', '/', ',', ':', ':'] body [dd, mm, yyyy, hh, mi, ss] ∧
    t = ⟨wrap64 dd, wrap64 mm, wrap64 yyyy, wrap64 hh, wrap64 mi, wrap64 ss⟩

/-! ## Fields -/

/-- The first field of a split text ends at the first separator. -/
theorem splitOn_eq_cons {sep : UInt8} {s f : Bytes} {fs : List Bytes} (h : s.splitOn sep = f :: fs) :
    sep ∉ f ∧ (fs = [] ∧ s = f ∨ ∃ rest, s = f ++ sep :: rest ∧ rest.splitOn sep = fs) := by
  have hfront : sep ∉ s.takeWhile (· ≠ sep) := by
    intro hmem
    simpa using List.mem_takeWhile_imp hmem
  have hsplit := List.takeWhile_append_dropWhile (p := fun c => decide (c ≠ sep)) (l := s)
  cases hrest : s.dropWhile (· ≠ sep) with
  | nil =>
      rw [hrest, List.append_nil] at hsplit
      rw [hsplit] at hfront
      rw [List.splitOn_eq_singleton hfront] at h
      cases h
      exact ⟨hfront, .inl ⟨rfl, rfl⟩⟩
  | cons c rest =>
      have hc : c = sep := by
        have hhead := List.head?_dropWhile_not (fun c => decide (c ≠ sep)) s
        rw [hrest] at hhead
        simpa using hhead
      subst hc
      rw [hrest] at hsplit
      rw [← hsplit, List.splitOn_append_cons_self_of_not_mem hfront] at h
      cases h
      exact ⟨hfront, .inr ⟨rest, hsplit.symm, rfl⟩⟩

theorem splitOn_eq_singleton_iff {sep : UInt8} {s f : Bytes} (h : s.splitOn sep = [f]) : s = f := by
  obtain ⟨_, ⟨_, rfl⟩ | ⟨rest, _, hrest⟩⟩ := splitOn_eq_cons h
  · rfl
  · exact absurd hrest (List.splitOn_ne_nil _ _)

theorem splitOn_eq_cons_cons {sep : UInt8} {s f g : Bytes} {fs : List Bytes} (h : s.splitOn sep = f :: g :: fs) :
    sep ∉ f ∧ ∃ rest, s = f ++ sep :: rest ∧ rest.splitOn sep = g :: fs := by
  obtain ⟨hf, ⟨hnone, _⟩ | hrest⟩ := splitOn_eq_cons h
  · cases hnone
  · exact ⟨hf, hrest⟩

/-- There is one field more than there are separators. -/
theorem length_splitOn (sep : UInt8) (s : Bytes) : (s.splitOn sep).length = s.count sep + 1 := by
  generalize hfields : s.splitOn sep = fields
  induction fields generalizing s with
  | nil => exact absurd hfields (List.splitOn_ne_nil _ _)
  | cons f fs ih =>
      obtain ⟨hf, ⟨rfl, rfl⟩ | ⟨rest, rfl, hrest⟩⟩ := splitOn_eq_cons hfields
      · rw [List.count_eq_zero_of_not_mem hf]
        rfl
      · rw [List.length_cons, ih rest hrest, List.count_append, List.count_eq_zero_of_not_mem hf,
          List.count_cons_self]
        omega

/-! ## Scanners -/

/-- What may follow a number. -/
def Separated (rest : Bytes) : Prop := ∀ c ∈ rest.head?, isDigit c = false ∧ c ≠ chr '.'

theorem Separated.stops {rest : Bytes} (h : Separated rest) : StopsDigits rest := fun c hc => (h c hc).1

theorem separated_nil : Separated [] := nofun

theorem separated_cons {c : UInt8} (hdigit : isDigit c = false) (hdot : c ≠ chr '.') (rest : Bytes) :
    Separated (c :: rest) := by
  rintro _ ⟨⟩
  exact ⟨hdigit, hdot⟩

/-- The scanner takes the field off the front of the text, and leaves the rest. -/
def Reads {α : Type} (scan : Bytes → α × Bytes) (s : Bytes) (v : α) : Prop :=
  ∀ rest, Separated rest → scan (s ++ rest) = (v, rest)

theorem digitsField_eq_some {s : Bytes} {n : Nat} (h : digitsField s = some n) :
    s ≠ [] ∧ s.all isDigit = true ∧ digitsValue s = n := by
  unfold digitsField at h
  split_ifs at h with hs
  cases h
  exact ⟨hs.1, hs.2, rfl⟩

/-- A digit is no sign. -/
theorem scanSign_of_digit {c : UInt8} (hc : isDigit c = true) (p : Bytes) : scanSign (c :: p) = (false, c :: p) := by
  have hno : ¬ (c = chr '-' ∨ c = chr '+') := by
    rintro (rfl | rfl)
    · exact absurd hc (by decide)
    · exact absurd hc (by decide)
  rw [scanSign, if_neg hno]

theorem scanSign_of_digits {s : Bytes} (hne : s ≠ []) (hs : s.all isDigit = true) (rest : Bytes) :
    scanSign (s ++ rest) = (false, s ++ rest) := by
  obtain ⟨c, p, rfl⟩ := List.exists_cons_of_ne_nil hne
  rw [List.all_cons, Bool.and_eq_true] at hs
  exact scanSign_of_digit hs.1 _

theorem reads_padded {n v : Nat} {s : Bytes} (h : paddedField n s = some v) : Reads scanInt s (Int64.ofInt v) := by
  unfold paddedField at h
  split_ifs at h
  obtain ⟨hne, hs, rfl⟩ := digitsField_eq_some h
  intro rest hrest
  unfold scanInt
  rw [scanSign_of_digits hne hs]
  dsimp only
  rw [scanDigits_zero hs hrest.stops, Int64.ofInt_eq_ofNat]
  rfl

/-- So many digits, so many tens. -/
theorem digitsValue_lt {s : Bytes} (hs : s.all isDigit = true) : digitsValue s < 10 ^ s.length := by
  induction s using List.reverseRecOn with
  | nil => decide
  | append_singleton s c ih =>
      rw [List.all_append, Bool.and_eq_true] at hs
      obtain ⟨d, hd, rfl⟩ := exists_digit (c := c) (by simpa using hs.2)
      have hlt := ih hs.1
      rw [digitsValue_concat, digitOf_digit hd, List.length_append, List.length_singleton, pow_succ]
      omega

theorem paddedField_lt {n v : Nat} {s : Bytes} (h : paddedField n s = some v) : v < 10 ^ n := by
  unfold paddedField at h
  split_ifs at h with hlen
  obtain ⟨_, hs, rfl⟩ := digitsField_eq_some h
  exact hlen ▸ digitsValue_lt hs

/-- The sign goes off the front, and the number is what is left. -/
theorem signedField_cases {number : Bytes → Option Nat} {s : Bytes} {v : Int} (h : signedField number s = some v) :
    ∃ neg body n, (∀ rest, scanSign (s ++ rest) = (neg, body ++ rest)) ∧ number body = some n ∧
      v = if neg then -(n : Int) else n := by
  cases s with
  | nil => cases h
  | cons c p =>
      unfold signedField at h
      dsimp only at h
      split_ifs at h with hminus hplus
      · obtain ⟨n, hn, rfl⟩ := Option.map_eq_some_iff.mp h
        refine ⟨true, p, n, fun rest => ?_, hn, rfl⟩
        rw [List.cons_append, scanSign, if_pos (.inl hminus), hminus]
        rfl
      · obtain ⟨n, hn, rfl⟩ := Option.map_eq_some_iff.mp h
        refine ⟨false, p, n, fun rest => ?_, hn, rfl⟩
        rw [List.cons_append, scanSign, if_pos (.inr hplus), hplus]
        rfl
      · obtain ⟨n, hn, rfl⟩ := Option.map_eq_some_iff.mp h
        refine ⟨false, c :: p, n, fun rest => ?_, hn, rfl⟩
        rw [List.cons_append, scanSign, if_neg (not_or.mpr ⟨hminus, hplus⟩)]

/-- The sign is put back in 64 bits. -/
theorem ofInt_signed (neg : Bool) (n : Nat) :
    (if neg then -Int64.ofNat n else Int64.ofNat n) = Int64.ofInt (if neg then -(n : Int) else n) := by
  cases neg with
  | false => exact Int64.ofInt_eq_ofNat.symm
  | true =>
      show -Int64.ofNat n = Int64.ofInt (-(n : Int))
      rw [Int64.ofInt_neg, Int64.ofInt_eq_ofNat]

theorem reads_signed {s : Bytes} {v : Int} (h : signedField digitsField s = some v) :
    Reads scanInt s (Int64.ofInt v) := by
  obtain ⟨neg, body, n, hsign, hbody, rfl⟩ := signedField_cases h
  obtain ⟨_, hs, rfl⟩ := digitsField_eq_some hbody
  intro rest hrest
  unfold scanInt
  rw [hsign]
  dsimp only
  rw [scanDigits_zero hs hrest.stops]
  dsimp only
  rw [ofInt_signed]

/-- Digits past the second are passed over. -/
theorem scanFraction_zero {s rest : Bytes} (hs : s.all isDigit = true) (hrest : StopsDigits rest) (frac : Int64) :
    scanFraction 0 frac (s ++ rest) = (frac, rest) := by
  induction s with
  | nil =>
      cases rest with
      | nil => simp [scanFraction]
      | cons c rest =>
          have hc : isDigit c = false := hrest c rfl
          simp [scanFraction, hc]
  | cons c s ih =>
      rw [List.all_cons, Bool.and_eq_true] at hs
      rw [List.cons_append, scanFraction, if_pos hs.1]
      exact ih hs.2

theorem scanFraction_stop {rest : Bytes} (hrest : StopsDigits rest) (places : Nat) (frac : Int64) :
    scanFraction places frac rest = (frac * 10 ^ places, rest) := by
  cases rest with
  | nil => rfl
  | cons c rest =>
      have hc : isDigit c = false := hrest c rfl
      unfold scanFraction
      rw [hc]
      rfl

/-- A fraction is padded or cut to two digits. -/
theorem scanFraction_digits {s rest : Bytes} (hs : s.all isDigit = true) (hrest : StopsDigits rest) :
    scanFraction 2 0 (s ++ rest) = (Int64.ofNat (centsOf s), rest) := by
  have hzero : digitOf (chr '0') = 0 := by decide
  match s, hs with
  | [], _ =>
      rw [List.nil_append, scanFraction_stop hrest]
      rfl
  | [a], hs =>
      have ha : isDigit a = true := by simpa using hs
      rw [List.cons_append, scanFraction, if_pos ha, List.nil_append, scanFraction_stop hrest]
      have hten : (10 : Int64) ^ 1 = 10 := by decide
      simp [centsOf, digitsValue, hzero, hten]
  | a :: b :: s, hs =>
      rw [List.all_cons, List.all_cons, Bool.and_eq_true, Bool.and_eq_true] at hs
      rw [List.cons_append, List.cons_append, scanFraction, if_pos hs.1, scanFraction, if_pos hs.2.1,
        scanFraction_zero hs.2.2 hrest]
      simp [centsOf, digitsValue]

/-- The sign, the number in front of the point, and the fraction. -/
theorem scanPriceMinor_cents {neg : Bool} {s body rest : Bytes} {n : Nat}
    (hsign : scanSign (s ++ rest) = (neg, body ++ rest)) (h : centsField body = some n) (hrest : Separated rest) :
    scanPriceMinor (s ++ rest) = ((if neg then -Int64.ofNat n else Int64.ofNat n).toInt32, rest) := by
  unfold scanPriceMinor
  rw [hsign]
  dsimp only
  unfold centsField at h
  split at h
  case h_1 whole hsplit =>
    obtain ⟨v, hv, rfl⟩ := Option.map_eq_some_iff.mp h
    obtain ⟨_, hs, rfl⟩ := digitsField_eq_some hv
    rw [splitOn_eq_singleton_iff hsplit, scanDigits_zero hs hrest.stops, Int64.ofNat_mul]
    cases rest with
    | nil => simp [scanFraction]
    | cons c rest =>
        have hdot : c ≠ chr '.' := (hrest c rfl).2
        simp [hdot]
  case h_2 whole frac hsplit =>
    split_ifs at h with hs
    cases h
    obtain ⟨_, rest', rfl, hfrac⟩ := splitOn_eq_cons_cons hsplit
    rw [splitOn_eq_singleton_iff hfrac, List.append_assoc, List.cons_append]
    have hstop : StopsDigits (chr '.' :: (frac ++ rest)) := by
      rintro _ ⟨⟩
      decide
    rw [scanDigits_zero hs.2.1 hstop]
    dsimp only
    rw [if_pos rfl, scanFraction_digits hs.2.2 hrest.stops, Int64.ofNat_add, Int64.ofNat_mul]
    rfl
  case h_3 => cases h

theorem reads_price {s : Bytes} {v : Int} (h : priceField s = some v) : Reads scanPriceMinor s (Int32.ofInt v) := by
  obtain ⟨hcents, _⟩ := Option.filter_eq_some_iff.mp h
  obtain ⟨neg, body, n, hsign, hbody, rfl⟩ := signedField_cases hcents
  intro rest hrest
  rw [scanPriceMinor_cents (hsign rest) hbody hrest, ofInt_signed, Int64.toInt32_ofInt]

theorem reads_count {s : Bytes} {v : Int} (h : countField s = some v) :
    ∃ w, Reads scanInt s w ∧ w.toInt32 = Int32.ofInt v :=
  ⟨_, reads_signed (Option.filter_eq_some_iff.mp h).1, Int64.toInt32_ofInt⟩

theorem reads_interest {s : Bytes} {v : Int} (h : interestField s = some v) : Reads scanInt s (Int64.ofInt v) :=
  reads_signed (Option.filter_eq_some_iff.mp h).1

theorem fits_iff {bits : Nat} {v : Int} : fits bits v = true ↔ -2 ^ (bits - 1) ≤ v ∧ v < 2 ^ (bits - 1) := by
  unfold fits
  rw [Bool.and_eq_true, decide_eq_true_eq, decide_eq_true_eq]

/-- A value that fits is stored as it is. -/
theorem toInt_price {s : Bytes} {v : Int} (h : priceField s = some v) : (Int32.ofInt v).toInt = v :=
  have hfits := fits_iff.mp (Option.filter_eq_some_iff.mp h).2
  Int32.toInt_ofInt_of_le hfits.1 hfits.2

theorem toInt_count {s : Bytes} {v : Int} (h : countField s = some v) : (Int32.ofInt v).toInt = v :=
  have hfits := fits_iff.mp (Option.filter_eq_some_iff.mp h).2
  Int32.toInt_ofInt_of_le hfits.1 hfits.2

theorem toInt_interest {s : Bytes} {v : Int} (h : interestField s = some v) : (Int64.ofInt v).toInt = v :=
  have hfits := fits_iff.mp (Option.filter_eq_some_iff.mp h).2
  Int64.toInt_ofInt_of_le hfits.1 hfits.2

/-- A number of a few digits is stored as it is. -/
theorem toInt_of_lt {n v : Nat} (hn : n ≤ 4) (h : v < 10 ^ n) : (Int64.ofInt v).toInt = v := by
  have hlt : v < 10 ^ 4 := lt_of_lt_of_le h (Nat.pow_le_pow_right (by norm_num) hn)
  exact Int64.toInt_ofInt_of_le (by omega) (by omega)

/-- Three numbers and the separators between them. -/
theorem reads_triple {sep : Char} {a b c : Nat} (ha : a ≤ 4) (hb : b ≤ 4) (hc : c ≤ 4) {s : Bytes} {x y z : Nat}
    (h : tripleField sep a b c s = some (x, y, z)) :
    (∃ s₁ s₂ s₃, s = s₁ ++ chr sep :: (s₂ ++ chr sep :: s₃) ∧ Reads scanInt s₁ (Int64.ofInt x) ∧
      Reads scanInt s₂ (Int64.ofInt y) ∧ Reads scanInt s₃ (Int64.ofInt z)) ∧
    (Int64.ofInt x).toInt = x ∧ (Int64.ofInt y).toInt = y ∧ (Int64.ofInt z).toInt = z := by
  unfold tripleField at h
  split at h
  case h_1 s₁ s₂ s₃ hsplit =>
    obtain ⟨x', hx, h⟩ := Option.bind_eq_some_iff.mp h
    obtain ⟨y', hy, h⟩ := Option.bind_eq_some_iff.mp h
    obtain ⟨z', hz, h⟩ := Option.bind_eq_some_iff.mp h
    cases h
    obtain ⟨_, rest, rfl, hrest⟩ := splitOn_eq_cons_cons hsplit
    obtain ⟨_, rest', rfl, hrest'⟩ := splitOn_eq_cons_cons hrest
    rw [splitOn_eq_singleton_iff hrest']
    exact ⟨⟨s₁, s₂, s₃, rfl, reads_padded hx, reads_padded hy, reads_padded hz⟩,
      toInt_of_lt ha (paddedField_lt hx), toInt_of_lt hb (paddedField_lt hy), toInt_of_lt hc (paddedField_lt hz)⟩
  case h_2 => cases h

/-- A field in front of a separator. -/
theorem Reads.before {α : Type} {scan : Bytes → α × Bytes} {s : Bytes} {v : α} (h : Reads scan s v) (rest : Bytes) :
    scan (s ++ chr ',' :: rest) = (v, chr ',' :: rest) ∧ scan (s ++ chr '/' :: rest) = (v, chr '/' :: rest) ∧
      scan (s ++ chr ':' :: rest) = (v, chr ':' :: rest) :=
  ⟨h _ (separated_cons (by decide) (by decide) _), h _ (separated_cons (by decide) (by decide) _),
    h _ (separated_cons (by decide) (by decide) _)⟩

theorem Reads.last {α : Type} {scan : Bytes → α × Bytes} {s : Bytes} {v : α} (h : Reads scan s v) : scan s = (v, []) := by
  have hnil := h [] separated_nil
  rwa [List.append_nil] at hnil

theorem skipChar_self (c : Char) (rest : Bytes) : skipChar c (chr c :: rest) = rest := if_pos rfl

/-- The first field is skipped, whatever it is. -/
theorem skipField_append {s : Bytes} (hs : chr ',' ∉ s) (hends : ∀ c ∈ s, lineEnd c = false) (rest : Bytes) :
    skipField (s ++ chr ',' :: rest) = rest := by
  unfold skipField
  have hpass : ∀ c ∈ s, (!(decide (c = chr ',') || lineEnd c)) = true := by
    intro c hc
    have hne : c ≠ chr ',' := fun heq => hs (heq ▸ hc)
    simp [hne, hends c hc]
  rw [List.dropWhile_append_of_pos hpass, List.dropWhile_cons_of_neg (by simp), skipChar_self]

/-! ## Rows -/

/-- The date and time of a row. -/
def CsvRow.stamp (r : CsvRow) : Stamp :=
  ⟨r.dd.toInt, r.mm.toInt, r.yyyy.toInt, r.hh.toInt, r.mi.toInt, r.ss.toInt⟩

theorem CsvRow.ranges_iff (r : CsvRow) : r.Ranges ↔ r.stamp.InRange :=
  ⟨fun h => ⟨h.year, h.month, h.day, h.hour, h.minute, h.second⟩,
    fun ⟨hy, hm, hd, hh, hi, hs⟩ => ⟨hy, hm, hd, hh, hi, hs⟩⟩

theorem CsvRow.Ranges.date_eq {r : CsvRow} (h : r.Ranges) : r.date = r.stamp.date := by
  have hdate := h.toInt_date
  have hstamp : r.stamp.date = ⟨Int32.ofInt r.date.yyyymmdd.toInt⟩ := by
    rw [hdate]
    rfl
  rw [hstamp, Int32.ofInt_toInt]

theorem CsvRow.Ranges.instant_eq {r : CsvRow} (h : r.Ranges) (options : GfdlLoadOptions) :
    r.ts options = r.stamp.instant options.utcOffsetSeconds.toInt := by
  rw [h.ts_eq, h.days_eq]
  rfl

/-- The values of a line are stored as they are. -/
structure FieldValues.Stored (v : FieldValues) : Prop where
  stamp : v.row.stamp = v.stamp
  last : (Int32.ofInt v.last).toInt = v.last
  bid : (Int32.ofInt v.bid).toInt = v.bid
  bidQty : (Int32.ofInt v.bidQty).toInt = v.bidQty
  ask : (Int32.ofInt v.ask).toInt = v.ask
  askQty : (Int32.ofInt v.askQty).toInt = v.askQty
  lastQty : (Int32.ofInt v.lastQty).toInt = v.lastQty
  openInterest : (Int64.ofInt v.openInterest).toInt = v.openInterest

theorem FieldValues.Stored.quote_eq {v : FieldValues} (h : v.Stored) (hr : v.row.Ranges) (options : GfdlLoadOptions) :
    v.row.quote options = v.quote options := by
  have hts : v.row.ts options = v.stamp.instant options.utcOffsetSeconds.toInt := by
    rw [hr.instant_eq, h.stamp]
  unfold CsvRow.quote FieldValues.quote
  rw [hts]
  unfold FieldValues.row
  dsimp only
  rw [h.last, h.bid, h.bidQty, h.ask, h.askQty, h.lastQty, h.openInterest]

/-- **A line of the format** has ten fields, and the scanners read it exactly. -/
theorem strictRow_spec {line : Bytes} {v : FieldValues} (h : strictRow line = some v)
    (hends : ∀ c ∈ line, lineEnd c = false) : line.count (chr ',') = 9 ∧ scanRow line = v.row ∧ v.Stored := by
  unfold strictRow at h
  split at h
  case h_1 ticker date time last bid bidQty ask askQty lastQty openInterest hsplit =>
    have hcount := length_splitOn (chr ',') line
    rw [hsplit] at hcount
    refine ⟨by simpa using hcount.symm, ?_⟩
    obtain ⟨⟨dd, mm, yyyy⟩, hdate, h⟩ := Option.bind_eq_some_iff.mp h
    obtain ⟨⟨hh, mi, ss⟩, htime, h⟩ := Option.bind_eq_some_iff.mp h
    obtain ⟨last', hlast, h⟩ := Option.bind_eq_some_iff.mp h
    obtain ⟨bid', hbid, h⟩ := Option.bind_eq_some_iff.mp h
    obtain ⟨bidQty', hbidQty, h⟩ := Option.bind_eq_some_iff.mp h
    obtain ⟨ask', hask, h⟩ := Option.bind_eq_some_iff.mp h
    obtain ⟨askQty', haskQty, h⟩ := Option.bind_eq_some_iff.mp h
    obtain ⟨lastQty', hlastQty, h⟩ := Option.bind_eq_some_iff.mp h
    obtain ⟨openInterest', hopen, h⟩ := Option.bind_eq_some_iff.mp h
    cases h
    obtain ⟨⟨d₁, d₂, d₃, rfl, hdd, hmm, hyyyy⟩, hdd', hmm', hyyyy'⟩ := reads_triple (by decide) (by decide) (by decide) hdate
    obtain ⟨⟨t₁, t₂, t₃, rfl, hhh, hmi, hss⟩, hhh', hmi', hss'⟩ := reads_triple (by decide) (by decide) (by decide) htime
    refine ⟨?_, ⟨?_, toInt_price hlast, toInt_price hbid, toInt_count hbidQty, toInt_price hask, toInt_count haskQty,
      toInt_count hlastQty, toInt_interest hopen⟩⟩
    · -- the text of the line, field by field
      obtain ⟨hticker, l₁, rfl, h₁⟩ := splitOn_eq_cons_cons hsplit
      obtain ⟨_, l₂, rfl, h₂⟩ := splitOn_eq_cons_cons h₁
      obtain ⟨_, l₃, rfl, h₃⟩ := splitOn_eq_cons_cons h₂
      obtain ⟨_, l₄, rfl, h₄⟩ := splitOn_eq_cons_cons h₃
      obtain ⟨_, l₅, rfl, h₅⟩ := splitOn_eq_cons_cons h₄
      obtain ⟨_, l₆, rfl, h₆⟩ := splitOn_eq_cons_cons h₅
      obtain ⟨_, l₇, rfl, h₇⟩ := splitOn_eq_cons_cons h₆
      obtain ⟨_, l₈, rfl, h₈⟩ := splitOn_eq_cons_cons h₇
      obtain ⟨_, l₉, rfl, h₉⟩ := splitOn_eq_cons_cons h₈
      obtain rfl := splitOn_eq_singleton_iff h₉
      have hskip := skipField_append hticker (fun c hc => hends c (List.mem_append_left _ hc))
      obtain ⟨wBid, hwBid, hbid32⟩ := reads_count hbidQty
      obtain ⟨wAsk, hwAsk, hask32⟩ := reads_count haskQty
      obtain ⟨wLast, hwLast, hlast32⟩ := reads_count hlastQty
      unfold scanRow FieldValues.row
      simp only [hskip, List.append_assoc, List.cons_append, skipChar_self, (hdd.before _).2.1, (hmm.before _).2.1,
        (hyyyy.before _).1, (hhh.before _).2.2, (hmi.before _).2.2, (hss.before _).1, ((reads_price hlast).before _).1,
        ((reads_price hbid).before _).1, (hwBid.before _).1, ((reads_price hask).before _).1, (hwAsk.before _).1,
        (hwLast.before _).1, (reads_interest hopen).last, hbid32, hask32, hlast32]
    · unfold FieldValues.row CsvRow.stamp
      dsimp only
      rw [hdd', hmm', hyyyy', hhh', hmi', hss']
  case h_2 => cases h

/-! ## What a line is taken for -/

/-- A number in front of a text is what the scanner reads, cut to 64 bits. -/
theorem Begins.scan {p rest : Bytes} {v : Int} (h : Begins p v rest) : scanInt p = (Int64.ofInt v, rest) := by
  unfold scanInt
  cases h with
  | @minus digits _ all stops =>
      rw [scanSign, if_pos (.inl rfl)]
      dsimp only
      rw [scanDigits_zero all stops, Int64.ofInt_neg, Int64.ofInt_eq_ofNat]
      rfl
  | @plus digits _ all stops =>
      rw [scanSign, if_pos (.inr rfl)]
      dsimp only
      rw [scanDigits_zero all stops, Int64.ofInt_eq_ofNat]
      rfl
  | @unsigned digits _ all stops none_minus none_plus =>
      have hsign : scanSign (digits ++ rest) = (false, digits ++ rest) := by
        generalize digits ++ rest = p at none_minus none_plus
        cases p with
        | nil => rfl
        | cons c p =>
            rw [scanSign, if_neg]
            rintro (rfl | rfl)
            · exact none_minus rfl
            · exact none_plus rfl
      rw [hsign]
      dsimp only
      rw [scanDigits_zero all stops, Int64.ofInt_eq_ofNat]
      rfl

/-- A text is digits, and what is left of it. -/
theorem exists_digits (p : Bytes) : ∃ digits rest, p = digits ++ rest ∧ digits.all isDigit = true ∧ StopsDigits rest := by
  refine ⟨p.takeWhile isDigit, p.dropWhile isDigit, List.takeWhile_append_dropWhile.symm, List.all_takeWhile, ?_⟩
  intro c hc
  have hhead := List.head?_dropWhile_not isDigit p
  rw [Option.mem_def.mp hc] at hhead
  simpa using hhead

/-- Every text begins with a number. -/
theorem exists_begins (p : Bytes) : ∃ v rest, Begins p v rest := by
  by_cases hminus : p.head? = some (chr '-')
  · obtain ⟨q, rfl⟩ := List.head?_eq_some_iff.mp hminus
    obtain ⟨digits, rest, rfl, hall, hstops⟩ := exists_digits q
    exact ⟨_, rest, .minus hall hstops⟩
  · by_cases hplus : p.head? = some (chr '+')
    · obtain ⟨q, rfl⟩ := List.head?_eq_some_iff.mp hplus
      obtain ⟨digits, rest, rfl, hall, hstops⟩ := exists_digits q
      exact ⟨_, rest, .plus hall hstops⟩
    · obtain ⟨digits, rest, rfl, hall, hstops⟩ := exists_digits p
      exact ⟨_, rest, .unsigned hall hstops hminus hplus⟩

/-- The scanners one after the other. -/
def scanAll : List Char → Bytes → List Int64
  | [], p => [(scanInt p).1]
  | sep :: seps, p => (scanInt p).1 :: scanAll seps (skipChar sep (scanInt p).2)

theorem skipChar_of_ne {sep : Char} {p : Bytes} (h : p.head? ≠ some (chr sep)) : skipChar sep p = p := by
  cases p with
  | nil => rfl
  | cons c p =>
      have hc : c ≠ chr sep := fun heq => h (heq ▸ rfl)
      rw [skipChar, if_neg hc]

theorem BeginsAll.scan {seps : List Char} {p : Bytes} {vs : List Int} (h : BeginsAll seps p vs) :
    scanAll seps p = vs.map Int64.ofInt := by
  induction h with
  | last number =>
      rw [scanAll, number.scan]
      rfl
  | separated number _ ih =>
      rw [scanAll, number.scan, skipChar_self, ih]
      rfl
  | joined number none_there _ ih =>
      rw [scanAll, number.scan, skipChar_of_ne none_there, ih]
      rfl

theorem exists_beginsAll (seps : List Char) (p : Bytes) : ∃ vs, BeginsAll seps p vs := by
  induction seps generalizing p with
  | nil =>
      obtain ⟨v, rest, hnumber⟩ := exists_begins p
      exact ⟨[v], .last hnumber⟩
  | cons sep seps ih =>
      obtain ⟨v, rest, hnumber⟩ := exists_begins p
      by_cases hthere : rest.head? = some (chr sep)
      · obtain ⟨q, rfl⟩ := List.head?_eq_some_iff.mp hthere
        obtain ⟨vs, hothers⟩ := ih q
        exact ⟨v :: vs, .separated hnumber hothers⟩
      · obtain ⟨vs, hothers⟩ := ih rest
        exact ⟨v :: vs, .joined hnumber hthere hothers⟩

theorem BeginsAll.length_eq {seps : List Char} {p : Bytes} {vs : List Int} (h : BeginsAll seps p vs) :
    vs.length = seps.length + 1 := by
  have hlen := congrArg List.length h.scan
  rw [List.length_map] at hlen
  rw [← hlen]
  clear h hlen
  induction seps generalizing p with
  | nil => rfl
  | cons sep seps ih => rw [scanAll, List.length_cons, ih, List.length_cons]

/-- The date and time are the first six numbers behind the ticker. -/
theorem scanRow_numbers (line : Bytes) :
    scanAll ['/', '/', ',', ':', ':'] (skipField line) =
      [(scanRow line).dd, (scanRow line).mm, (scanRow line).yyyy, (scanRow line).hh, (scanRow line).mi,
        (scanRow line).ss] := by
  unfold scanRow
  simp only [scanAll]

/-- **What a line is taken for** is what the scanners read of it. -/
theorem takenAs_iff {line : Bytes} (hends : ∀ c ∈ line, lineEnd c = false) (t : Stamp) :
    TakenAs line t ↔ line.count (chr ',') = 9 ∧ t = (scanRow line).stamp := by
  refine and_congr_right (fun hcount => ?_)
  have hstamp : ∀ {ticker body dd mm yyyy hh mi ss}, line = ticker ++ chr ',' :: body → chr ',' ∉ ticker →
      BeginsAll ['/', '/', ',', ':', ':'] body [dd, mm, yyyy, hh, mi, ss] →
      (scanRow line).stamp = ⟨wrap64 dd, wrap64 mm, wrap64 yyyy, wrap64 hh, wrap64 mi, wrap64 ss⟩ := by
    intro ticker body dd mm yyyy hh mi ss hline hticker hbegins
    have hscan := scanRow_numbers line
    have hskip : skipField line = body := by
      rw [hline]
      exact skipField_append hticker (fun c hc => hends c (hline ▸ List.mem_append_left _ hc)) body
    rw [hskip, hbegins.scan] at hscan
    simp only [List.map_cons, List.map_nil, List.cons.injEq, and_true] at hscan
    obtain ⟨hdd, hmm, hyyyy, hhh, hmi, hss⟩ := hscan
    unfold CsvRow.stamp wrap64
    rw [← hdd, ← hmm, ← hyyyy, ← hhh, ← hmi, ← hss]
    simp only [Int64.toInt_ofInt]
    rfl
  constructor
  · rintro ⟨ticker, body, dd, mm, yyyy, hh, mi, ss, hline, hticker, hbegins, rfl⟩
    exact (hstamp hline hticker hbegins).symm
  · rintro rfl
    have hmem : chr ',' ∈ line := List.count_pos_iff.mp (by omega)
    obtain ⟨ticker, body, hline, hticker⟩ := List.eq_append_cons_of_mem hmem
    obtain ⟨vs, hbegins⟩ := exists_beginsAll ['/', '/', ',', ':', ':'] body
    match vs, hbegins.length_eq, hbegins with
    | [dd, mm, yyyy, hh, mi, ss], _, hbegins =>
        exact ⟨ticker, body, dd, mm, yyyy, hh, mi, ss, hline, hticker, hbegins, hstamp hline hticker hbegins⟩

end Volforge.Gfdl
