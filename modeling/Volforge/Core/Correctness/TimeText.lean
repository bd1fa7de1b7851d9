import Volforge.Core.Strategy

/-!
# `Core.Correctness.TimeText` — the text of a time of day

`parse_time_of_day` reads two characters at each of the fixed places with a scanner that is content with one digit, or
with a minus sign and a digit, and looks at no other character. A text that is a time of day is read as that time. What
else is read is exactly `Misread`.

## Contents
- **Texts.** What is literally a time of day, and what is misread.
- **Fields.** Two characters.
- **Main result.** `time_text_exact_iff`, and a text with one digit too few.
-/

namespace Volforge

/-! ## Texts -/

namespace TimeText

def IsDigit (c : UInt8) : Prop := 48 ≤ c ∧ c ≤ 57

instance (c : UInt8) : Decidable (IsDigit c) := inferInstanceAs (Decidable (_ ∧ _))

/-- The number two digits write. -/
def twoDigits (a b : UInt8) : Int := 10 * ((a.toNat : Int) - 48) + ((b.toNat : Int) - 48)

/-- Two digits, up to a limit. -/
def Literal (limit : Int) (a b : UInt8) : Prop := IsDigit a ∧ IsDigit b ∧ twoDigits a b ≤ limit

/-- Seconds since midnight of a text that is literally a time of day. -/
def timeOf (s : Bytes) (sod : Int) : Prop :=
  (∃ h₁ h₂ m₁ m₂, s = [h₁, h₂, 58, m₁, m₂] ∧ Literal 23 h₁ h₂ ∧ Literal 59 m₁ m₂ ∧
    sod = twoDigits h₁ h₂ * 3600 + twoDigits m₁ m₂ * 60) ∨
  ∃ h₁ h₂ m₁ m₂ s₁ s₂, s = [h₁, h₂, 58, m₁, m₂, 58, s₁, s₂] ∧ Literal 23 h₁ h₂ ∧ Literal 59 m₁ m₂ ∧
    Literal 59 s₁ s₂ ∧ sod = twoDigits h₁ h₂ * 3600 + twoDigits m₁ m₂ * 60 + twoDigits s₁ s₂

/-- What is read of a field: two digits up to the limit, one digit before any other character, or minus zero. -/
def Taken (limit : Int) (a b : UInt8) : Prop :=
  (IsDigit a ∧ (IsDigit b → twoDigits a b ≤ limit)) ∨ (a = 45 ∧ b = 48)

/-- The texts that are read though they are not a time of day. -/
def Misread (s : Bytes) : Prop :=
  (∃ h₁ h₂ c m₁ m₂, s = [h₁, h₂, c, m₁, m₂] ∧ Taken 23 h₁ h₂ ∧ Taken 59 m₁ m₂ ∧
    ¬ (c = 58 ∧ IsDigit h₁ ∧ IsDigit h₂ ∧ IsDigit m₁ ∧ IsDigit m₂)) ∨
  ∃ h₁ h₂ c m₁ m₂ c' s₁ s₂, s = [h₁, h₂, c, m₁, m₂, c', s₁, s₂] ∧ Taken 23 h₁ h₂ ∧ Taken 59 m₁ m₂ ∧ Taken 59 s₁ s₂ ∧
    ¬ (c = 58 ∧ c' = 58 ∧ IsDigit h₁ ∧ IsDigit h₂ ∧ IsDigit m₁ ∧ IsDigit m₂ ∧ IsDigit s₁ ∧ IsDigit s₂)

/-! ## Fields -/

theorem Literal.taken {limit : Int} {a b : UInt8} (h : Literal limit a b) : Taken limit a b := .inl ⟨h.1, fun _ => h.2.2⟩

theorem Taken.literal {limit : Int} {a b : UInt8} (h : Taken limit a b) (ha : IsDigit a) (hb : IsDigit b) :
    Literal limit a b := by
  rcases h with ⟨_, hle⟩ | ⟨rfl, _⟩
  · exact ⟨ha, hb, hle hb⟩
  · exact absurd ha (by decide)

theorem digit_bounds {c : UInt8} (h : IsDigit c) : 48 ≤ c.toNat ∧ c.toNat ≤ 57 :=
  ⟨UInt8.le_iff_toNat_le.mp h.1, UInt8.le_iff_toNat_le.mp h.2⟩

theorem fromChars2_two {a b : UInt8} (ha : IsDigit a) (hb : IsDigit b) : fromChars2 a b = some (twoDigits a b) := by
  have ha' : 48 ≤ a ∧ a ≤ 57 := ha
  have hb' : 48 ≤ b ∧ b ≤ 57 := hb
  unfold fromChars2
  dsimp only
  rw [if_pos ha', if_pos hb']
  rfl

theorem fromChars2_one {a b : UInt8} (ha : IsDigit a) (hb : ¬ IsDigit b) :
    fromChars2 a b = some ((a.toNat : Int) - 48) := by
  have ha' : 48 ≤ a ∧ a ≤ 57 := ha
  have hb' : ¬ (48 ≤ b ∧ b ≤ 57) := hb
  unfold fromChars2
  dsimp only
  rw [if_pos ha', if_neg hb']

theorem fromChars2_minus {b : UInt8} (hb : IsDigit b) : fromChars2 45 b = some (-((b.toNat : Int) - 48)) := by
  have hb' : 48 ≤ b ∧ b ≤ 57 := hb
  unfold fromChars2
  dsimp only
  rw [if_neg (by decide), if_pos rfl, if_pos hb']
  rfl

theorem fromChars2_none {a b : UInt8} (ha : ¬ IsDigit a) (h : a = 45 → ¬ IsDigit b) : fromChars2 a b = none := by
  have ha' : ¬ (48 ≤ a ∧ a ≤ 57) := ha
  unfold fromChars2
  dsimp only
  rw [if_neg ha']
  by_cases hsign : a = 45
  · have hb' : ¬ (48 ≤ b ∧ b ≤ 57) := h hsign
    rw [if_neg hb']
    exact ite_self _
  · exact if_neg hsign

/-- A field that is taken has a value up to the limit: that of its digits if there are two. -/
theorem Taken.value {limit : Int} (hlimit : 9 ≤ limit) {a b : UInt8} (h : Taken limit a b) :
    ∃ v, fromChars2 a b = some v ∧ 0 ≤ v ∧ v ≤ limit ∧ (IsDigit a → IsDigit b → v = twoDigits a b) := by
  rcases h with ⟨ha, hle⟩ | ⟨rfl, rfl⟩
  · obtain ⟨hlow, hhigh⟩ := digit_bounds ha
    by_cases hb : IsDigit b
    · obtain ⟨hlow', hhigh'⟩ := digit_bounds hb
      refine ⟨_, fromChars2_two ha hb, ?_, hle hb, fun _ _ => rfl⟩
      unfold twoDigits
      omega
    · exact ⟨_, fromChars2_one ha hb, by omega, by omega, fun _ hb' => absurd hb' hb⟩
  · exact ⟨0, rfl, le_refl 0, by omega, fun ha => absurd ha (by decide)⟩

/-- A field that is not taken has no value, or one out of range. -/
theorem value_of_not_taken {limit : Int} {a b : UInt8} (h : ¬ Taken limit a b) {v : Int}
    (hv : fromChars2 a b = some v) : v < 0 ∨ limit < v := by
  by_cases ha : IsDigit a
  · by_cases hb : IsDigit b
    · rw [fromChars2_two ha hb] at hv
      cases hv
      by_contra hin
      exact h (.inl ⟨ha, fun _ => by omega⟩)
    · exact absurd (.inl ⟨ha, fun hb' => absurd hb' hb⟩) h
  · by_cases hminus : a = 45 ∧ IsDigit b
    · obtain ⟨rfl, hb⟩ := hminus
      rw [fromChars2_minus hb] at hv
      cases hv
      obtain ⟨hlow, _⟩ := digit_bounds hb
      have hne : b.toNat ≠ 48 := fun heq => h (.inr ⟨rfl, UInt8.toNat_inj.mp heq⟩)
      exact .inl (by omega)
    · rw [fromChars2_none ha (fun hsign hb => hminus ⟨hsign, hb⟩)] at hv
      cases hv

/-! ## Main result -/

/-- What the parser has to do with a text. -/
def ReadExactly (s : Bytes) : Prop :=
  (∀ sod, timeOf s sod → parseTimeOfDay s = .ok sod) ∧
    ((∀ sod, ¬ timeOf s sod) → ∃ e, parseTimeOfDay s = .error e)

section
variable {h₁ h₂ c m₁ m₂ c' s₁ s₂ : UInt8}

/-- The three fields, and the check of their ranges. -/
theorem parse_eight (h₁ h₂ c m₁ m₂ c' s₁ s₂ : UInt8) : parseTimeOfDay [h₁, h₂, c, m₁, m₂, c', s₁, s₂] =
    match fromChars2 h₁ h₂, fromChars2 m₁ m₂, fromChars2 s₁ s₂ with
    | some h, some m, some sec =>
        if h < 0 ∨ 23 < h ∨ m < 0 ∨ 59 < m ∨ sec < 0 ∨ 59 < sec then
          .error (.invalidArgument "time of day out of range")
        else .ok (h * 3600 + m * 60 + sec)
    | _, _, _ => .error (.invalidArgument "bad time of day") := by
  cases hh : fromChars2 h₁ h₂ with
  | none => simp [parseTimeOfDay, hh, bind, Except.bind]
  | some h =>
      cases hm : fromChars2 m₁ m₂ with
      | none => simp [parseTimeOfDay, hh, hm, bind, Except.bind]
      | some m =>
          cases hs : fromChars2 s₁ s₂ with
          | none => simp [parseTimeOfDay, hh, hm, hs, bind, Except.bind]
          | some sec =>
              simp only [parseTimeOfDay, hh, hm, hs, bind, Except.bind, List.getD_cons_zero, List.getD_cons_succ]
              rfl

/-- A text without seconds is the one with `:00`. -/
theorem parse_five (h₁ h₂ c m₁ m₂ : UInt8) :
    parseTimeOfDay [h₁, h₂, c, m₁, m₂] = parseTimeOfDay [h₁, h₂, c, m₁, m₂, 58, 48, 48] := rfl

theorem timeOf_eight {sod : Int} : timeOf [h₁, h₂, c, m₁, m₂, c', s₁, s₂] sod ↔
    c = 58 ∧ c' = 58 ∧ Literal 23 h₁ h₂ ∧ Literal 59 m₁ m₂ ∧ Literal 59 s₁ s₂ ∧
      sod = twoDigits h₁ h₂ * 3600 + twoDigits m₁ m₂ * 60 + twoDigits s₁ s₂ := by
  constructor
  · rintro (⟨_, _, _, _, heq, _⟩ | ⟨_, _, _, _, _, _, heq, hh, hm, hs, hsod⟩)
    · simp at heq
    · simp only [List.cons.injEq, and_true] at heq
      obtain ⟨rfl, rfl, rfl, rfl, rfl, rfl, rfl, rfl⟩ := heq
      exact ⟨rfl, rfl, hh, hm, hs, hsod⟩
  · rintro ⟨rfl, rfl, hh, hm, hs, hsod⟩
    exact .inr ⟨_, _, _, _, _, _, rfl, hh, hm, hs, hsod⟩

theorem timeOf_five {sod : Int} : timeOf [h₁, h₂, c, m₁, m₂] sod ↔ timeOf [h₁, h₂, c, m₁, m₂, 58, 48, 48] sod := by
  have hzero : twoDigits 48 48 = 0 := by decide
  have hliteral : Literal 59 48 48 := ⟨by decide, by decide, by decide⟩
  rw [timeOf_eight, hzero, Int.add_zero]
  constructor
  · rintro (⟨_, _, _, _, heq, hh, hm, hsod⟩ | ⟨_, _, _, _, _, _, heq, _⟩)
    · simp only [List.cons.injEq, and_true] at heq
      obtain ⟨rfl, rfl, rfl, rfl, rfl⟩ := heq
      exact ⟨rfl, rfl, hh, hm, hliteral, hsod⟩
    · simp at heq
  · rintro ⟨rfl, _, hh, hm, _, hsod⟩
    exact .inl ⟨_, _, _, _, rfl, hh, hm, hsod⟩

theorem misread_eight : Misread [h₁, h₂, c, m₁, m₂, c', s₁, s₂] ↔
    Taken 23 h₁ h₂ ∧ Taken 59 m₁ m₂ ∧ Taken 59 s₁ s₂ ∧
      ¬ (c = 58 ∧ c' = 58 ∧ IsDigit h₁ ∧ IsDigit h₂ ∧ IsDigit m₁ ∧ IsDigit m₂ ∧ IsDigit s₁ ∧ IsDigit s₂) := by
  constructor
  · rintro (⟨_, _, _, _, _, heq, _⟩ | ⟨_, _, _, _, _, _, _, _, heq, hh, hm, hs, hnot⟩)
    · simp at heq
    · simp only [List.cons.injEq, and_true] at heq
      obtain ⟨rfl, rfl, rfl, rfl, rfl, rfl, rfl, rfl⟩ := heq
      exact ⟨hh, hm, hs, hnot⟩
  · rintro ⟨hh, hm, hs, hnot⟩
    exact .inr ⟨_, _, _, _, _, _, _, _, rfl, hh, hm, hs, hnot⟩

theorem misread_five : Misread [h₁, h₂, c, m₁, m₂] ↔ Misread [h₁, h₂, c, m₁, m₂, 58, 48, 48] := by
  have hzero : IsDigit 48 := by decide
  have htaken : Taken 59 48 48 := .inl ⟨hzero, fun _ => by decide⟩
  rw [misread_eight]
  constructor
  · rintro (⟨_, _, _, _, _, heq, hh, hm, hnot⟩ | ⟨_, _, _, _, _, _, _, _, heq, _⟩)
    · simp only [List.cons.injEq, and_true] at heq
      obtain ⟨rfl, rfl, rfl, rfl, rfl⟩ := heq
      exact ⟨hh, hm, htaken, fun h => hnot ⟨h.1, h.2.2.1, h.2.2.2.1, h.2.2.2.2.1, h.2.2.2.2.2.1⟩⟩
    · simp at heq
  · rintro ⟨hh, hm, _, hnot⟩
    exact .inl ⟨_, _, _, _, _, rfl, hh, hm, fun h => hnot ⟨h.1, rfl, h.2.1, h.2.2.1, h.2.2.2.1, h.2.2.2.2, hzero, hzero⟩⟩

theorem readExactly_eight : ReadExactly [h₁, h₂, c, m₁, m₂, c', s₁, s₂] ↔ ¬ Misread [h₁, h₂, c, m₁, m₂, c', s₁, s₂] := by
  unfold ReadExactly
  rw [misread_eight, parse_eight]
  simp only [timeOf_eight]
  by_cases hall : Taken 23 h₁ h₂ ∧ Taken 59 m₁ m₂ ∧ Taken 59 s₁ s₂
  · obtain ⟨hh, hm, hs⟩ := hall
    obtain ⟨h, hread, hlow, hhigh, hvalue⟩ := hh.value (by norm_num)
    obtain ⟨m, hread', hlow', hhigh', hvalue'⟩ := hm.value (by norm_num)
    obtain ⟨sec, hread'', hlow'', hhigh'', hvalue''⟩ := hs.value (by norm_num)
    have hin : ¬ (h < 0 ∨ 23 < h ∨ m < 0 ∨ 59 < m ∨ sec < 0 ∨ 59 < sec) := by omega
    rw [hread, hread', hread'']
    dsimp only
    rw [if_neg hin]
    by_cases hliteral : c = 58 ∧ c' = 58 ∧ IsDigit h₁ ∧ IsDigit h₂ ∧ IsDigit m₁ ∧ IsDigit m₂ ∧ IsDigit s₁ ∧ IsDigit s₂
    · -- literally a time of day, and its digits are read
      obtain ⟨hc, hc', d₁, d₂, d₃, d₄, d₅, d₆⟩ := hliteral
      refine iff_of_true ⟨?_, ?_⟩ (fun hmis => hmis.2.2.2 ⟨hc, hc', d₁, d₂, d₃, d₄, d₅, d₆⟩)
      · rintro sod ⟨_, _, _, _, _, rfl⟩
        rw [hvalue d₁ d₂, hvalue' d₃ d₄, hvalue'' d₅ d₆]
      · intro hno
        exact absurd ⟨hc, hc', hh.literal d₁ d₂, hm.literal d₃ d₄, hs.literal d₅ d₆, rfl⟩ (hno _)
    · -- read as a time of day, though it is none
      refine iff_of_false ?_ (fun hgood => hgood ⟨hh, hm, hs, hliteral⟩)
      rintro ⟨_, hrefuse⟩
      obtain ⟨e, he⟩ := hrefuse (fun sod htime => hliteral
        ⟨htime.1, htime.2.1, htime.2.2.1.1, htime.2.2.1.2.1, htime.2.2.2.1.1, htime.2.2.2.1.2.1, htime.2.2.2.2.1.1,
          htime.2.2.2.2.1.2.1⟩)
      cases he
  · -- a field is missing or out of range
    refine iff_of_true ⟨?_, fun _ => ?_⟩ (fun hmis => hall ⟨hmis.1, hmis.2.1, hmis.2.2.1⟩)
    · rintro sod ⟨_, _, hh, hm, hs, _⟩
      exact absurd ⟨hh.taken, hm.taken, hs.taken⟩ hall
    · cases hread : fromChars2 h₁ h₂ with
      | none => exact ⟨_, rfl⟩
      | some h =>
          cases hread' : fromChars2 m₁ m₂ with
          | none => exact ⟨_, rfl⟩
          | some m =>
              cases hread'' : fromChars2 s₁ s₂ with
              | none => exact ⟨_, rfl⟩
              | some sec =>
                  have hout : h < 0 ∨ 23 < h ∨ m < 0 ∨ 59 < m ∨ sec < 0 ∨ 59 < sec := by
                    by_contra hin
                    refine hall ⟨?_, ?_, ?_⟩
                    · by_contra hnot
                      have := value_of_not_taken hnot hread
                      omega
                    · by_contra hnot
                      have := value_of_not_taken hnot hread'
                      omega
                    · by_contra hnot
                      have := value_of_not_taken hnot hread''
                      omega
                  exact ⟨_, if_pos hout⟩

end

/-- **A text is read exactly** unless it is one of those that are misread. -/
theorem time_text_exact_iff (s : Bytes) : ReadExactly s ↔ ¬ Misread s := by
  by_cases hfive : s.length = 5
  · match s, hfive with
    | [h₁, h₂, c, m₁, m₂], _ =>
        have hread : ReadExactly [h₁, h₂, c, m₁, m₂] ↔ ReadExactly [h₁, h₂, c, m₁, m₂, 58, 48, 48] := by
          unfold ReadExactly
          simp only [timeOf_five, parse_five]
        rw [hread, misread_five]
        exact readExactly_eight
  · by_cases height : s.length = 8
    · match s, height with
      | [h₁, h₂, c, m₁, m₂, c', s₁, s₂], _ => exact readExactly_eight
    · have hrefused : ∃ e, parseTimeOfDay s = .error e := ⟨_, if_pos ⟨hfive, height⟩⟩
      refine iff_of_true ⟨?_, fun _ => hrefused⟩ ?_
      · rintro sod (⟨_, _, _, _, rfl, _⟩ | ⟨_, _, _, _, _, _, rfl, _⟩)
        · exact absurd rfl hfive
        · exact absurd rfl height
      · rintro (⟨_, _, _, _, _, rfl, _⟩ | ⟨_, _, _, _, _, _, _, _, rfl, _⟩)
        · exact absurd rfl hfive
        · exact absurd rfl height

/-- `"9:30 "` is read as nine o'clock. -/
theorem half_past_nine_is_misread : ¬ ReadExactly [57, 58, 51, 48, 32] := by
  rintro ⟨_, hrefuse⟩
  obtain ⟨e, he⟩ := hrefuse (by
    intro sod htime
    rw [timeOf_five, timeOf_eight] at htime
    exact absurd htime.1 (by decide))
  have hread : parseTimeOfDay [57, 58, 51, 48, 32] = .ok 32400 := by decide
  rw [hread] at he
  cases he

end TimeText

end Volforge
