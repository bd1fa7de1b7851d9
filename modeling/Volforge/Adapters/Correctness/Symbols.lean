import Volforge.Adapters.Correctness.Scanners
import Volforge.Core.Correctness.CivilDates
import Mathlib.Data.List.GetD

/-!
# `Adapters.Correctness.Symbols` — vendor symbols, there and back

A symbol is a name, a day, a month, a year, a strike and a right written one after the other. The parser cuts a ticker at
its first dot before it looks at any of them, so the point of a strike ends the ticker as well.

## Contents
- **Writing.** `symbol`, and the parts of a symbol with a whole strike.
- **Reading.** The parser accepts exactly the texts of well formed parts.
- **Main result.** `vendor_symbols_round_trip_iff`.
-/

namespace Volforge.Gfdl

open Calendar

/-! ## Writing -/

/-- `RIGHTS.get(right, "?")`. -/
def rightText : Right → Bytes
  | .Call => text "CE"
  | .Put => text "PE"
  | .unnamed _ _ => text "?"

/-- One of the two rights that have a name. -/
def Named (right : Right) : Prop := right = .Call ∨ right = .Put

/-- The month of a number from 1 to 12. -/
def monthText (m : Nat) : Bytes := text (kMonths.getD (m - 1) "")

/-- A strike of so many paise, as Python writes the number of rupees. -/
def strikeText (paise : Nat) : Bytes :=
  if paise % 100 = 0 then decimal (paise / 100)
  else
    let frac := if paise % 10 = 0 then [digit (paise % 100 / 10)] else twoDigits (paise % 100)
    decimal (paise / 100) ++ chr '.' :: frac

/-- `Instrument.symbol` of the reference reader. -/
def symbol (i : ParsedSymbol) : Bytes :=
  let y := i.expiry.yyyymmdd.toInt.toNat / 10000
  let m := i.expiry.yyyymmdd.toInt.toNat / 100 % 100
  let d := i.expiry.yyyymmdd.toInt.toNat % 100
  i.underlying ++ twoDigits d ++ monthText m ++ twoDigits (y % 100) ++ strikeText i.strike.toInt.toNat ++ rightText i.right

/-- A contract the vendor writes: a name without digits and dots, a date of this century, a strike above zero. -/
structure VendorContract (i : ParsedSymbol) : Prop where
  named : i.underlying ≠ []
  underlying : ∀ c ∈ i.underlying, isDigit c = false ∧ c ≠ chr '.'
  expiry : i.expiry.Real
  century : 2000 ≤ i.expiry.year ∧ i.expiry.year ≤ 2099
  strike : 0 < i.strike
  right : Named i.right

/-- The parts of a ticker, the year without its century. -/
structure Parts where
  underlying : Bytes
  day : Nat
  month : Nat
  year : Nat
  strike : Bytes
  right : Right

namespace Parts

def body (f : Parts) : Bytes := f.underlying ++ (twoDigits f.day ++ monthText f.month ++ twoDigits f.year ++ f.strike)

def ticker (f : Parts) : Bytes := f.body ++ rightText f.right

/-- A name without digits and dots, two digits for the day and for the year, a month and a strike of digits. -/
structure WellFormed (f : Parts) : Prop where
  named : f.underlying ≠ []
  underlying : ∀ c ∈ f.underlying, isDigit c = false ∧ c ≠ chr '.'
  day : f.day < 100
  month : 1 ≤ f.month ∧ f.month ≤ 12
  year : f.year < 100
  struck : f.strike ≠ []
  strike : f.strike.all isDigit = true
  right : Named f.right

/-- What the parser asks of the parts: twelve characters, a day up to 31 and a strike above zero. -/
structure Accepted (f : Parts) : Prop where
  length : 12 ≤ f.ticker.length
  day : 1 ≤ f.day ∧ f.day ≤ 31
  strike : 0 < (scanPriceMinor f.strike).1

def parsed (f : Parts) : ParsedSymbol where
  underlying := f.underlying
  expiry := .ofCivil (2000 + f.year : Nat) f.month f.day
  strike := (scanPriceMinor f.strike).1
  right := f.right

end Parts

/-- Nothing, or a dot and anything. -/
def IsSuffix (s : Bytes) : Prop := ∀ c ∈ s.head?, c = chr '.'

/-! ## Reading -/

theorem monthText_spec : ∀ m ∈ List.range' 1 12,
    monthFrom (monthText m) = m ∧ (monthText m).length = 3 ∧ ∀ c ∈ monthText m, isDigit c = false ∧ c ≠ chr '.' := by
  decide +kernel

theorem monthFrom_monthText {m : Nat} (h : 1 ≤ m ∧ m ≤ 12) : monthFrom (monthText m) = m :=
  (monthText_spec m (List.mem_range'_1.mpr (by omega))).1

theorem exists_monthText {m : Nat} (h : 1 ≤ m ∧ m ≤ 12) : ∃ m₁ m₂ m₃, monthText m = [m₁, m₂, m₃] :=
  List.length_eq_three.mp (monthText_spec m (List.mem_range'_1.mpr (by omega))).2.1

/-- A name that is found is that of a month. -/
theorem monthFrom_cases (s : Bytes) : monthFrom s = 0 ∨ ∃ m, (1 ≤ m ∧ m ≤ 12) ∧ s = monthText m ∧ monthFrom s = m := by
  unfold monthFrom
  split
  case h_1 i hi =>
    right
    obtain ⟨hlt, heq, _⟩ := List.findIdx?_eq_some_iff_getElem.mp hi
    refine ⟨i + 1, ⟨by omega, Nat.succ_le_of_lt hlt⟩, ?_, by simp⟩
    unfold monthText
    rw [Nat.add_sub_cancel, List.getD_eq_getElem _ _ hlt]
    exact (of_decide_eq_true heq).symm
  case h_2 => exact Or.inl rfl

theorem length_rightText {right : Right} (h : Named right) : (rightText right).length = 2 := by
  rcases h with rfl | rfl
  · rfl
  · rfl

theorem rightOf_append (body : Bytes) {right : Right} (h : Named right) :
    rightOf (body ++ rightText right) = some right := by
  unfold rightOf
  rw [List.length_append, length_rightText h, Nat.add_sub_cancel, List.drop_left]
  rcases h with rfl | rfl
  · decide
  · decide

theorem rightOf_eq_some {ticker : Bytes} {right : Right} (h : rightOf ticker = some right) :
    Named right ∧ ticker = ticker.take (ticker.length - 2) ++ rightText right := by
  unfold rightOf at h
  dsimp only at h
  have hsplit := List.take_append_drop (ticker.length - 2) ticker
  split at h
  case isTrue hce =>
    obtain rfl := Option.some.inj h
    rw [hce] at hsplit
    exact ⟨Or.inl rfl, hsplit.symm⟩
  case isFalse =>
    split at h
    case isTrue hpe =>
      obtain rfl := Option.some.inj h
      rw [hpe] at hsplit
      exact ⟨Or.inr rfl, hsplit.symm⟩
    case isFalse => cases h

/-- A ticker that ends in a digit has no right. -/
theorem rightOf_digit {ticker : Bytes} {c : UInt8} (h : isDigit c = true) : rightOf (ticker ++ [c]) = none := by
  cases hright : rightOf (ticker ++ [c]) with
  | none => rfl
  | some right =>
      obtain ⟨hnamed, heq⟩ := rightOf_eq_some hright
      have hlast := congrArg List.getLast? heq
      rw [List.getLast?_concat] at hlast
      rcases hnamed with rfl | rfl
      · rw [List.getLast?_append_of_ne_nil _ (by decide)] at hlast
        obtain rfl := Option.some.inj hlast
        exact absurd h (by decide)
      · rw [List.getLast?_append_of_ne_nil _ (by decide)] at hlast
        obtain rfl := Option.some.inj hlast
        exact absurd h (by decide)

theorem value_twoDigits {n : Nat} (h : n < 100) :
    ((digitOf (digit (n / 10)) : Int) * 10 + digitOf (digit (n % 10))) = n := by
  rw [digitOf_digit (by omega), digitOf_digit (by omega)]
  omega

/-- The parser on the text after the name. -/
theorem parseContract_parts {f : Parts} (h : f.WellFormed) :
    parseContract f.underlying f.right (twoDigits f.day ++ monthText f.month ++ twoDigits f.year ++ f.strike) =
      if 0 < (scanPriceMinor f.strike).1 ∧ 1 ≤ f.day ∧ f.day ≤ 31 then some f.parsed else none := by
  obtain ⟨m₁, m₂, m₃, hmonth⟩ := exists_monthText h.month
  have hfrom := monthFrom_monthText h.month
  have hday := h.day
  have hyear := h.year
  have hyears : (2000 : Int) + digitOf (digit (f.year / 10)) * 10 + digitOf (digit (f.year % 10)) = 2000 + f.year := by
    rw [add_assoc, value_twoDigits hyear]
  have hstrike : f.strike.any (fun c => !isDigit c && c ≠ chr '.') = false := by
    rw [List.any_eq_false]
    intro c hc
    simp [List.all_eq_true.mp h.strike c hc]
  rw [hmonth] at hfrom ⊢
  show parseContract _ _ (digit (f.day / 10) :: digit (f.day % 10) :: m₁ :: m₂ :: m₃ :: digit (f.year / 10) ::
    digit (f.year % 10) :: f.strike) = _
  unfold parseContract
  simp only [isDigit_digit (by omega : f.day / 10 < 10), isDigit_digit (by omega : f.day % 10 < 10),
    isDigit_digit (by omega : f.year / 10 < 10), isDigit_digit (by omega : f.year % 10 < 10), hfrom, value_twoDigits hday,
    hyears, hstrike, List.isEmpty_eq_false_iff.mpr h.struck]
  have hm : ¬ ((f.month : Int) = 0) := by
    have hlow := h.month.1
    omega
  rw [if_neg (by decide), if_neg hm, if_neg (by decide), if_neg (by decide), if_neg (by decide)]
  by_cases hpos : 0 < (scanPriceMinor f.strike).1
  · rw [if_neg (by simpa [Int32.le_iff_toInt_le, Int32.lt_iff_toInt_lt] using hpos)]
    by_cases hrange : 1 ≤ f.day ∧ f.day ≤ 31
    · rw [if_neg (by simp; omega), if_pos ⟨hpos, hrange⟩]
      rfl
    · rw [if_pos (by simp; omega), if_neg (fun hall => hrange hall.2)]
  · rw [if_pos (by simpa [Int32.le_iff_toInt_le, Int32.lt_iff_toInt_lt] using hpos), if_neg (fun hall => hpos hall.1)]

/-- The text after the name has seven characters before the strike. -/
theorem length_dated {f : Parts} (h : f.WellFormed) :
    (twoDigits f.day ++ monthText f.month ++ twoDigits f.year ++ f.strike).length = 7 + f.strike.length := by
  obtain ⟨m₁, m₂, m₃, hmonth⟩ := exists_monthText h.month
  rw [hmonth]
  simp [twoDigits]
  omega

theorem dot_notMem_body {f : Parts} (h : f.WellFormed) : chr '.' ∉ f.body := by
  have hday := h.day
  have hyear := h.year
  have hmonth := (monthText_spec f.month (List.mem_range'_1.mpr (by have := h.month; omega))).2.2
  have htwo : ∀ n < 100, chr '.' ∉ twoDigits n := by
    intro n hn hin
    rcases List.mem_pair.mp hin with heq | heq
    · exact digit_ne_dot (by omega) heq.symm
    · exact digit_ne_dot (by omega) heq.symm
  unfold Parts.body
  rw [List.mem_append, List.mem_append, List.mem_append, List.mem_append]
  rintro (hin | ((hin | hin) | hin) | hin)
  · exact (h.underlying _ hin).2 rfl
  · exact htwo f.day hday hin
  · exact (hmonth _ hin).2 rfl
  · exact htwo f.year hyear hin
  · exact absurd (List.all_eq_true.mp h.strike _ hin) (by decide)

/-- The ticker ends at its first dot. -/
theorem takeWhile_dot {s suffix : Bytes} (hs : chr '.' ∉ s) (hsuffix : IsSuffix suffix) :
    (s ++ suffix).takeWhile (fun c => c ≠ chr '.') = s := by
  have hall : ∀ c ∈ s, decide (c ≠ chr '.') = true := fun c hc => decide_eq_true (fun h => hs (h ▸ hc))
  rw [List.takeWhile_append_of_pos hall]
  cases suffix with
  | nil => simp
  | cons c rest =>
      obtain rfl := hsuffix c rfl
      simp

theorem takeWhile_name {f : Parts} (h : f.WellFormed) : f.body.takeWhile (fun c => !isDigit c) = f.underlying := by
  have hday := h.day
  have hall : ∀ c ∈ f.underlying, (!isDigit c) = true := fun c hc => by rw [(h.underlying c hc).1]; rfl
  unfold Parts.body
  rw [List.takeWhile_append_of_pos hall]
  show f.underlying ++ (digit (f.day / 10) :: _).takeWhile _ = _
  rw [List.takeWhile_cons_of_neg (by simp [isDigit_digit (by omega : f.day / 10 < 10)]), List.append_nil]

/-- The parser on the ticker of well formed parts. -/
theorem parseGfdlSymbol_ticker {f : Parts} (h : f.WellFormed) {suffix : Bytes} (hsuffix : IsSuffix suffix) :
    parseGfdlSymbol (f.ticker ++ suffix) =
      if f.ticker.length < 12 then none
      else if 0 < (scanPriceMinor f.strike).1 ∧ 1 ≤ f.day ∧ f.day ≤ 31 then some f.parsed else none := by
  have hdot : chr '.' ∉ f.ticker := by
    rw [Parts.ticker, List.mem_append, not_or]
    refine ⟨dot_notMem_body h, ?_⟩
    rcases h.right with hright | hright
    · rw [hright]
      decide
    · rw [hright]
      decide
  have hbody : f.ticker.take (f.ticker.length - 2) = f.body := by
    rw [Parts.ticker, List.length_append, length_rightText h.right, Nat.add_sub_cancel, List.take_left]
  have hlength : f.body.length = f.underlying.length + (7 + f.strike.length) := by
    rw [Parts.body, List.length_append, length_dated h]
  have hnamed := List.length_pos_iff.mpr h.named
  have hstruck := List.length_pos_iff.mpr h.struck
  unfold parseGfdlSymbol
  simp only [takeWhile_dot hdot hsuffix]
  split
  · rfl
  · have hright : rightOf f.ticker = some f.right := rightOf_append f.body h.right
    simp only [hright, hbody, takeWhile_name h]
    have hlong : (decide (f.underlying.length = 0) || decide (f.body.length ≤ f.underlying.length + 7)) = false := by
      rw [Bool.or_eq_false_iff, decide_eq_false_iff_not, decide_eq_false_iff_not]
      omega
    rw [hlong, Parts.body, List.drop_left]
    exact parseContract_parts h

/-- A text after the name that is accepted, cut into its parts. -/
theorem parseContract_eq_some {underlying rest : Bytes} {right : Right} {p : ParsedSymbol}
    (h : parseContract underlying right rest = some p) :
    ∃ day month year strike, rest = twoDigits day ++ monthText month ++ twoDigits year ++ strike ∧ day < 100 ∧
      (1 ≤ month ∧ month ≤ 12) ∧ year < 100 ∧ strike ≠ [] ∧ ∀ c ∈ strike, isDigit c = true ∨ c = chr '.' := by
  unfold parseContract at h
  split at h
  case h_2 => cases h
  case h_1 d₁ d₂ m₁ m₂ m₃ y₁ y₂ strike =>
    simp only [Option.ite_none_left_eq_some] at h
    obtain ⟨hday, hmonth, hyear, hempty, hstrike, _⟩ := h
    simp only [Bool.or_eq_true, Bool.not_eq_true', not_or, Bool.not_eq_false] at hday hyear
    obtain ⟨day, hdaylt, hdaytext, _⟩ := twoDigits_digitOf hday.1 hday.2
    obtain ⟨year, hyearlt, hyeartext, _⟩ := twoDigits_digitOf hyear.1 hyear.2
    obtain hzero | ⟨month, hmonths, hmonthtext, _⟩ := monthFrom_cases [m₁, m₂, m₃]
    · exact absurd hzero hmonth
    · refine ⟨day, month, year, strike, ?_, hdaylt, hmonths, hyearlt, ?_, ?_⟩
      · rw [← hdaytext, ← hmonthtext, ← hyeartext]
        rfl
      · rintro rfl
        exact hempty rfl
      · intro c hc
        have hkept := (List.any_eq_false.mp (Bool.eq_false_iff.mpr hstrike)) c hc
        simpa [or_iff_not_imp_left] using hkept

/-- Every ticker that is accepted has well formed parts. -/
theorem parseGfdlSymbol_eq_some {ticker : Bytes} {p : ParsedSymbol} (h : parseGfdlSymbol ticker = some p) :
    ∃ (f : Parts) (suffix : Bytes), ticker = f.ticker ++ suffix ∧ IsSuffix suffix ∧ f.WellFormed := by
  have hsuffix : IsSuffix (ticker.dropWhile (fun c => c ≠ chr '.')) := by
    intro c hc
    have hstop := List.head?_dropWhile_not (fun c => decide (c ≠ chr '.')) ticker
    rw [hc] at hstop
    simpa using hstop
  have hnodot : ∀ c ∈ ticker.takeWhile (fun c => c ≠ chr '.'), c ≠ chr '.' := by
    intro c hc
    simpa using List.mem_takeWhile_imp hc
  -- the ticker ends at the first dot; of its body, the name ends at the first digit
  have hsplit := List.takeWhile_append_dropWhile (p := fun c => decide (c ≠ chr '.')) (l := ticker)
  unfold parseGfdlSymbol at h
  dsimp only at h
  generalize ticker.takeWhile (fun c => c ≠ chr '.') = head at h hnodot hsplit
  split at h
  · cases h
  · split at h
    · cases h
    case h_2 right hright =>
      split at h
      · cases h
      case isFalse hlong =>
        obtain ⟨hnamed, hhead⟩ := rightOf_eq_some hright
        generalize head.take (head.length - 2) = body at h hhead hlong
        obtain ⟨day, month, year, strike, hrest, hday, hmonth, hyear, hstruck, hstrike⟩ := parseContract_eq_some h
        have hbody := List.prefix_iff_eq_append.mp (List.takeWhile_prefix (l := body) (fun c => !isDigit c))
        have hname : ∀ c ∈ body.takeWhile (fun c => !isDigit c), isDigit c = false := by
          intro c hc
          simpa using List.mem_takeWhile_imp hc
        have hin : ∀ c ∈ body, c ≠ chr '.' := fun c hc => hnodot c (hhead ▸ List.mem_append_left _ hc)
        generalize body.takeWhile (fun c => !isDigit c) = name at h hlong hrest hbody hname
        rw [hrest] at hbody
        refine ⟨⟨name, day, month, year, strike, right⟩, _, ?_, hsuffix, ?_⟩
        · rw [Parts.ticker, Parts.body, hbody, ← hhead, hsplit]
        · refine ⟨?_, fun c hc => ⟨hname c hc, hin c ?_⟩, hday, hmonth, hyear, hstruck, ?_, hnamed⟩
          · rintro rfl
            simp at hlong
          · rw [← hbody]
            exact List.mem_append_left _ hc
          · rw [List.all_eq_true]
            intro c hc
            refine (hstrike c hc).resolve_right (hin c ?_)
            rw [← hbody]
            exact List.mem_append_right _ (List.mem_append_right _ hc)

/-! ## There and back -/

/-- The parts of a contract, the strike in whole rupees. -/
def partsOf (i : ParsedSymbol) : Parts where
  underlying := i.underlying
  day := i.expiry.day.toNat
  month := i.expiry.month.toNat
  year := (i.expiry.year - 2000).toNat
  strike := decimal (i.strike.toInt.toNat / 100)
  right := i.right

theorem wellFormed_partsOf {i : ParsedSymbol} (h : VendorContract i) : (partsOf i).WellFormed := by
  have hcentury := h.century
  exact ⟨h.named, h.underlying, (two_digits_of_date h.expiry.date).2, h.expiry.date.month,
    show (i.expiry.year - 2000).toNat < 100 by omega, decimal_ne_nil _, all_decimal _, h.right⟩

/-- The text of a symbol up to its strike. -/
theorem symbol_eq {i : ParsedSymbol} (h : VendorContract i) :
    symbol i = i.underlying ++ twoDigits i.expiry.day.toNat ++ monthText i.expiry.month.toNat ++
      twoDigits (i.expiry.year - 2000).toNat ++ strikeText i.strike.toInt.toNat ++ rightText i.right := by
  have hvalue := toInt_ofCivil h.expiry.year h.expiry.date
  rw [← h.expiry.eq_ofCivil] at hvalue
  have hcentury := h.century
  obtain ⟨hm, hd⟩ := two_digits_of_date h.expiry.date
  have hday : i.expiry.yyyymmdd.toInt.toNat % 100 = i.expiry.day.toNat := by omega
  have hmonth : i.expiry.yyyymmdd.toInt.toNat / 100 % 100 = i.expiry.month.toNat := by omega
  have hyear : i.expiry.yyyymmdd.toInt.toNat / 10000 % 100 = (i.expiry.year - 2000).toNat := by omega
  unfold symbol
  dsimp only
  rw [hday, hmonth, hyear]

theorem symbol_whole {i : ParsedSymbol} (h : VendorContract i) (hwhole : i.strike.toInt % 100 = 0) :
    symbol i = (partsOf i).ticker := by
  have hpaise : i.strike.toInt.toNat % 100 = 0 := by omega
  rw [symbol_eq h, strikeText, if_pos hpaise]
  simp [Parts.ticker, Parts.body, partsOf]

theorem toInt_pos {x : Int32} (h : 0 < x) : 0 < x.toInt := Int32.lt_iff_toInt_lt.mp h

theorem parsed_partsOf {i : ParsedSymbol} (h : VendorContract i) (hwhole : i.strike.toInt % 100 = 0) :
    (partsOf i).parsed = i := by
  have hcentury := h.century
  have hpos := toInt_pos h.strike
  have hyear : (2000 + (i.expiry.year - 2000).toNat : Nat) = i.expiry.year := by omega
  have hexpiry : Date.ofCivil (2000 + (i.expiry.year - 2000).toNat : Nat) i.expiry.month.toNat i.expiry.day.toNat
      = i.expiry := by
    rw [hyear]
    exact h.expiry.eq_ofCivil.symm
  have hpaise : i.strike.toInt.toNat / 100 * 100 = i.strike.toInt.toNat := by omega
  have hstrike : (scanPriceMinor (decimal (i.strike.toInt.toNat / 100))).1 = i.strike := by
    rw [scanPriceMinor_digits (all_decimal _), digitsValue_decimal, hpaise, Int64.toInt32_ofNat', ← Int32.ofInt_eq_ofNat,
      Int.toNat_of_nonneg (le_of_lt hpos), Int32.ofInt_toInt]
  unfold Parts.parsed partsOf
  rw [hexpiry, hstrike]

/-- A ticker that is cut inside its strike has no right. -/
theorem parse_fraction {i : ParsedSymbol} (h : VendorContract i) (hfraction : i.strike.toInt % 100 ≠ 0) (suffix : Bytes) :
    parseGfdlSymbol (symbol i ++ suffix) = none := by
  have hdot := dot_notMem_body (wellFormed_partsOf h)
  have hpaise : i.strike.toInt.toNat % 100 ≠ 0 := by
    have hpos := toInt_pos h.strike
    omega
  obtain ⟨rest, hrest⟩ : ∃ rest, symbol i ++ suffix = (partsOf i).body ++ (chr '.' :: rest) := by
    rw [symbol_eq h, strikeText, if_neg hpaise]
    exact ⟨_, by simp [Parts.body, partsOf]; rfl⟩
  have hright : rightOf (partsOf i).body = none := by
    rw [Parts.body, partsOf, decimal_eq, ← List.append_assoc, ← List.append_assoc]
    exact rightOf_digit (isDigit_digit (Nat.mod_lt _ (by norm_num)))
  have hstop : IsSuffix (chr '.' :: rest) := by
    rintro c ⟨⟩
    rfl
  unfold parseGfdlSymbol
  simp only [hrest, takeWhile_dot hdot hstop, hright, ite_self]

/-- A date that was read is one of the calendar if its month is long enough. -/
theorem real_parsed_iff {f : Parts} (h : f.WellFormed) (hday : 1 ≤ f.day) :
    f.parsed.expiry.Real ↔ f.day ≤ monthLength (2000 + f.year : Nat) f.month := by
  have hlt := h.year
  have hmonth := h.month
  have hyear : YearInRange (2000 + f.year : Nat) := by
    unfold YearInRange
    omega
  obtain ⟨hy, hm, hd⟩ := parts_of_lt hyear (by omega : f.month < 100) h.day
  constructor
  · intro hreal
    have hlast := hreal.date.day.2
    rw [Parts.parsed, hy, hm, hd] at hlast
    exact hlast
  · intro hlast
    exact real_ofCivil hyear ⟨hmonth, hday, hlast⟩

/-! ## Main result -/

/-- A symbol is read back as what it was written from. -/
def RoundTrips (i : ParsedSymbol) (suffix : Bytes) : Prop := parseGfdlSymbol (symbol i ++ suffix) = some i

/-- If the parser takes a ticker at all, its day is one of its month. -/
def DayExists (ticker : Bytes) : Prop :=
  ∀ (f : Parts) (suffix : Bytes), ticker = f.ticker ++ suffix → IsSuffix suffix → f.WellFormed → f.Accepted →
    f.day ≤ monthLength (2000 + f.year : Nat) f.month

/-- Vendor symbols are read back if and only if the strike is a whole number of rupees, and what is read from a ticker
expires on a date of the calendar if and only if its day is one of its month. -/
theorem vendor_symbols_round_trip_iff (i : ParsedSymbol) (suffix ticker : Bytes) :
    (VendorContract i → (suffix = [] ∨ suffix = text ".NFO.csv") → 12 ≤ (symbol i).length →
      (RoundTrips i suffix ↔ i.strike.toInt % 100 = 0)) ∧
    ((∀ p, parseGfdlSymbol ticker = some p → p.expiry.Real) ↔ DayExists ticker) := by
  refine ⟨fun h hsuffix hlength => ⟨fun hround => ?_, fun hwhole => ?_⟩, ?_, ?_⟩
  · by_contra hfraction
    rw [RoundTrips, parse_fraction h hfraction] at hround
    cases hround
  · have hstop : IsSuffix suffix := by
      rcases hsuffix with rfl | rfl
      · exact nofun
      · unfold IsSuffix
        decide +kernel
    have hsymbol := symbol_whole h hwhole
    have hparsed := parsed_partsOf h hwhole
    have hday := h.expiry.date.day
    have hstrike : 0 < (partsOf i).parsed.strike := by
      rw [hparsed]
      exact h.strike
    rw [hsymbol] at hlength
    rw [RoundTrips, hsymbol, parseGfdlSymbol_ticker (wellFormed_partsOf h) hstop, if_neg (not_lt.mpr hlength),
      if_pos ⟨hstrike, hday.1, le_trans hday.2 (monthLength_le _ _)⟩, hparsed]
  · intro hreal f suffix heq hsuffix hwell hacc
    have hparse := parseGfdlSymbol_ticker hwell hsuffix
    rw [if_neg (not_lt.mpr hacc.length), if_pos ⟨hacc.strike, hacc.day⟩, ← heq] at hparse
    exact (real_parsed_iff hwell hacc.day.1).mp (hreal _ hparse)
  · intro hexists p hparse
    obtain ⟨f, suffix, rfl, hsuffix, hwell⟩ := parseGfdlSymbol_eq_some hparse
    rw [parseGfdlSymbol_ticker hwell hsuffix, Option.ite_none_left_eq_some] at hparse
    obtain ⟨hlength, hparse⟩ := hparse
    rw [Option.ite_none_right_eq_some] at hparse
    obtain ⟨⟨hstrike, hday⟩, hparsed⟩ := hparse
    rw [← Option.some.inj hparsed]
    exact (real_parsed_iff hwell hday.1).mpr (hexists f suffix rfl hsuffix hwell ⟨not_lt.mp hlength, hday, hstrike⟩)

/-- NIFTY, 29 February 2028, 23000, call. -/
def leapDayCall : ParsedSymbol := ⟨text "NIFTY", ⟨20280229⟩, 2300000, .Call⟩

theorem vendorContract_leapDayCall : VendorContract leapDayCall where
  named := by decide
  underlying := by decide +kernel
  expiry := ⟨by decide +kernel, by decide +kernel⟩
  century := by decide +kernel
  strike := by decide +kernel
  right := Or.inl rfl

theorem leap_day_call_round_trips : RoundTrips leapDayCall (text ".NFO.csv") :=
  ((vendor_symbols_round_trip_iff leapDayCall (text ".NFO.csv") []).1 vendorContract_leapDayCall (Or.inr rfl)
    (by decide +kernel)).mpr (by decide +kernel)

/-- NIFTY, 3 July 2025, 22987.50, call. -/
def halfRupeeCall : ParsedSymbol := ⟨text "NIFTY", ⟨20250703⟩, 2298750, .Call⟩

theorem vendorContract_halfRupeeCall : VendorContract halfRupeeCall where
  named := by decide
  underlying := by decide +kernel
  expiry := ⟨by decide +kernel, by decide +kernel⟩
  century := by decide +kernel
  strike := by decide +kernel
  right := Or.inl rfl

theorem fractional_strike_is_refused :
    symbol halfRupeeCall = text "NIFTY03JUL2522987.5CE" ∧ VendorContract halfRupeeCall ∧
      ¬ RoundTrips halfRupeeCall [] ∧
      ∃ p, parseGfdlSymbol (text "NIFTY31FEB2523000CE") = some p ∧ ¬ p.expiry.Real := by
  refine ⟨by decide +kernel, vendorContract_halfRupeeCall, ?_, ?_⟩
  · unfold RoundTrips
    decide +kernel
  · refine ⟨⟨text "NIFTY", ⟨20250231⟩, 2300000, .Call⟩, by decide +kernel, fun h => ?_⟩
    exact absurd h.date (by decide +kernel)

end Volforge.Gfdl
