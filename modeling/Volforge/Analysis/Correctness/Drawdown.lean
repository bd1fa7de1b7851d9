import Volforge.Analysis.Performance

/-!
# `Analysis.Correctness.Drawdown` — the fall a drawdown measures

`_drawdown` finds the worst fall from one session of the curve to a later one. `analyze` counts the first session's
profit from a starting equity of 0, which is not on the curve: a fall from there is seen only where the curve itself
falls as far.

## Contents
- **The pass.** `Scanned`, from one prefix of the curve to the next.
- **The report.** What `drawdown` makes of the pass, and the second loop as a search.
- **Main result.** `drawdown_from_start_iff`.
-/

namespace Volforge

namespace Analysis

open Falls

/-! ## The pass -/

variable {K D : Type} [LinearOrder K]

/-- The first half of a turn: the running peak. -/
def Pass.raise (st : Pass K) (v : K) (i : Nat) : Pass K :=
  if st.peak < v then { st with peak := v, peakI := i } else st

theorem Pass.raise_cases (st : Pass K) (v : K) (i : Nat) :
    (st.peak < v ∧ st.raise v i = { st with peak := v, peakI := i }) ∨ (v ≤ st.peak ∧ st.raise v i = st) := by
  unfold Pass.raise
  split
  · exact Or.inl ⟨‹_›, rfl⟩
  · exact Or.inr ⟨not_lt.mp ‹_›, rfl⟩

variable [Field K]

/-- The pass over a prefix of the curve: its highest entry, and its worst fall with both ends. -/
structure Scanned (seen : List K) (st : Pass K) : Prop where
  peak : seen[st.peakI]? = some st.peak
  le_peak : ∀ v ∈ seen, v ≤ st.peak
  order : st.worstPeakI ≤ st.worstI
  fall : ∃ a b, seen[st.worstPeakI]? = some a ∧ seen[st.worstI]? = some b ∧ b - a = st.worst
  least : ∀ d, ChangesBy seen d → st.worst ≤ d

theorem Scanned.isWorst {seen : List K} {st : Pass K} (h : Scanned seen st) : IsWorst seen st.worst := by
  obtain ⟨a, b, ha, hb, hfall⟩ := h.fall
  exact ⟨⟨_, _, a, b, h.order, ha, hb, hfall⟩, h.least⟩

theorem Scanned.worst_le {seen : List K} {st : Pass K} (h : Scanned seen st) : st.worst ≤ 0 :=
  h.least 0 ⟨_, _, _, _, le_refl _, h.peak, h.peak, sub_self _⟩

theorem scanned_start (first : K) : Scanned [first] (.start first) where
  peak := rfl
  le_peak _ hv := le_of_eq (List.mem_singleton.mp hv)
  order := le_refl 0
  fall := ⟨first, first, rfl, rfl, sub_self first⟩
  least := (isWorst_singleton first).least

theorem Pass.turn_eq (st : Pass K) (v : K) (i : Nat) :
    st.turn (v, i) =
      if v - (st.raise v i).peak < st.worst then
        { st.raise v i with worst := v - (st.raise v i).peak, worstI := i, worstPeakI := (st.raise v i).peakI }
      else st.raise v i := by
  obtain ⟨hlt, heq⟩ | ⟨hle, heq⟩ := st.raise_cases v i
  · simp only [Pass.turn, heq, if_pos hlt]
  · simp only [Pass.turn, heq, if_neg (not_lt.mpr hle)]

/-- The running peak with one entry more, before its fall is looked at. -/
structure Raised (seen : List K) (v : K) (st st' : Pass K) : Prop where
  peak : (seen ++ [v])[st'.peakI]? = some st'.peak
  le_peak : ∀ a ∈ seen ++ [v], a ≤ st'.peak
  peak_le : st'.peakI ≤ seen.length
  worst : st'.worst = st.worst
  worstI : st'.worstI = st.worstI
  worstPeakI : st'.worstPeakI = st.worstPeakI

theorem Scanned.raise {seen : List K} {st : Pass K} (h : Scanned seen st) (v : K) :
    Raised seen v st (st.raise v seen.length) := by
  have hpeak := (List.getElem?_eq_some_iff.mp h.peak).1
  obtain ⟨hlt, heq⟩ | ⟨hle, heq⟩ := st.raise_cases v seen.length
  · rw [heq]
    refine ⟨List.getElem?_concat_length, ?_, le_refl _, rfl, rfl, rfl⟩
    intro a ha
    rcases List.mem_append.mp ha with ha | ha
    · exact le_of_lt (lt_of_le_of_lt (h.le_peak a ha) hlt)
    · exact le_of_eq (List.mem_singleton.mp ha)
  · rw [heq]
    refine ⟨?_, ?_, le_of_lt hpeak, rfl, rfl, rfl⟩
    · rw [List.getElem?_append_left hpeak]
      exact h.peak
    · intro a ha
      rcases List.mem_append.mp ha with ha | ha
      · exact h.le_peak a ha
      · exact (List.mem_singleton.mp ha).trans_le hle

/-- **The step lemma** of the pass. -/
theorem Scanned.turn [IsStrictOrderedRing K] {seen : List K} {st : Pass K} (h : Scanned seen st) (v : K) :
    Scanned (seen ++ [v]) (st.turn (v, seen.length)) := by
  have hr := h.raise v
  have hfrom : ∀ a ∈ seen ++ [v], v - (st.raise v seen.length).peak ≤ v - a :=
    fun a ha => sub_le_sub_left (hr.le_peak a ha) v
  rw [Pass.turn_eq]
  split
  case isTrue hworse =>
    -- the fall that ends here is the worst so far
    refine ⟨hr.peak, hr.le_peak, hr.peak_le, ⟨_, v, hr.peak, List.getElem?_concat_length, rfl⟩, ?_⟩
    intro d hd
    rcases hd.concat with hd | ⟨a, ha, rfl⟩
    · exact le_of_lt (lt_of_lt_of_le hworse (h.least d hd))
    · exact hfrom a ha
  case isFalse hbetter =>
    -- the worst fall stays the one seen before
    refine ⟨hr.peak, hr.le_peak, ?_, ?_, ?_⟩
    · rw [hr.worstI, hr.worstPeakI]
      exact h.order
    · obtain ⟨a, b, ha, hb, hfall⟩ := h.fall
      rw [hr.worstI, hr.worstPeakI, hr.worst]
      refine ⟨a, b, ?_, ?_, hfall⟩
      · rw [List.getElem?_append_left (List.getElem?_eq_some_iff.mp ha).1]
        exact ha
      · rw [List.getElem?_append_left (List.getElem?_eq_some_iff.mp hb).1]
        exact hb
    · intro d hd
      rw [hr.worst]
      rcases hd.concat with hd | ⟨a, ha, rfl⟩
      · exact h.least d hd
      · exact le_trans (not_lt.mp hbetter) (hfrom a ha)

/-- The pass over a whole curve. -/
theorem scanned_pass [IsStrictOrderedRing K] (first : K) (rest : List K) :
    Scanned (first :: rest) ((first :: rest).zipIdx.foldl Pass.turn (.start first)) := by
  induction rest using List.reverseRecOn with
  | nil =>
      -- the first entry is its own peak
      have hfirst : (Pass.start first).turn (first, 0) = .start first := by simp [Pass.turn, Pass.start]
      show Scanned [first] ((Pass.start first).turn (first, 0))
      rw [hfirst]
      exact scanned_start first
  | append_singleton rest v ih =>
      rw [← List.cons_append, List.zipIdx_append, List.foldl_append]
      rw [List.zipIdx_singleton, Nat.zero_add]
      exact ih.turn v

/-! ## The report -/

omit [Field K] in
/-- The second loop looks for the first session after the trough that is back at the peak. -/
theorem find?_back (sessions : List (Session K D)) (peak : K) (n : Nat) :
    ((List.range' n ((sessions.map Session.equity).length - n)).find? (fun j =>
        (sessions.map Session.equity)[j]?.any (peak ≤ ·))).bind ((sessions.map Session.date)[·]?)
      = ((sessions.drop n).find? (fun s => peak ≤ s.equity)).map Session.date := by
  rw [List.length_map]
  have hdrop : (List.range' n (sessions.length - n)).map (sessions[·]?) = (sessions.drop n).map some := by
    refine List.ext_getElem (by simp) (fun i h₁ h₂ => ?_)
    simp at h₁ ⊢
  have hall := congrArg (List.find? (fun s => (s.map Session.equity).any (peak ≤ ·))) hdrop
  rw [List.find?_map, List.find?_map] at hall
  have hdate := congrArg (Option.bind · (Option.map Session.date)) hall
  simp only [Option.bind_map, Function.comp_def, Option.map_some, Option.any_some] at hdate
  simp only [List.getElem?_map]
  rw [hdate]
  exact Option.map_eq_bind.symm

omit [LinearOrder K] in
theorem getD_equity {sessions : List (Session K D)} {i : Nat} {s : Session K D} (h : sessions[i]? = some s) :
    (sessions.map Session.equity).getD i 0 = s.equity := by
  rw [List.getD_eq_getElem?_getD, List.getElem?_map, h]
  rfl

omit [LinearOrder K] [Field K] in
theorem getElem?_date {sessions : List (Session K D)} {i : Nat} {s : Session K D} (h : sessions[i]? = some s) :
    (sessions.map Session.date)[i]? = some s.date := by
  rw [List.getElem?_map, h]
  rfl

/-- What is reported of a curve: the two ends of its worst fall, if it falls at all. -/
structure Reports (sessions : List (Session K D)) (d : Drawdown K D) : Prop where
  isWorst : IsWorst (sessions.map Session.equity) d.depth
  ends : d.depth < 0 → ∃ i j peak trough, i ≤ j ∧ sessions[i]? = some peak ∧ sessions[j]? = some trough ∧
    trough.equity - peak.equity = d.depth ∧ d.peakEquity = peak.equity ∧ d.troughEquity = trough.equity ∧
    d.peakDate = some peak.date ∧ d.troughDate = some trough.date ∧
    d.recoveredDate = ((sessions.drop (j + 1)).find? (fun s => d.peakEquity ≤ s.equity)).map Session.date
  none : ¬ d.depth < 0 → d = {}

theorem Reports.depth_le {sessions : List (Session K D)} {d : Drawdown K D} (h : Reports sessions d) : d.depth ≤ 0 := by
  obtain ⟨i, _, a, _, _, ha, _⟩ := h.isWorst.changesBy
  exact h.isWorst.least 0 ⟨i, i, a, a, le_refl i, ha, ha, sub_self a⟩

theorem reports_drawdown [IsStrictOrderedRing K] {sessions : List (Session K D)} (hne : sessions ≠ []) :
    Reports sessions (drawdown (sessions.map Session.equity) (sessions.map Session.date)) := by
  obtain ⟨s, rest, rfl⟩ := List.exists_cons_of_ne_nil hne
  have hpass := scanned_pass s.equity (rest.map Session.equity)
  have hback := find?_back (s :: rest)
  obtain ⟨a, b, ha, hb, hfall⟩ := hpass.fall
  unfold drawdown
  rw [List.map_cons] at hback ⊢
  generalize hst : (s.equity :: rest.map Session.equity).zipIdx.foldl Pass.turn (.start s.equity) = st at *
  simp only [hst]
  split
  case isTrue hnone =>
    have hworst : st.worst = 0 := le_antisymm hpass.worst_le hnone
    exact ⟨hworst ▸ hpass.isWorst, fun h => absurd h (lt_irrefl _), fun _ => rfl⟩
  case isFalse hfalls =>
    refine ⟨hpass.isWorst, fun _ => ?_, fun h => absurd (not_lt.mp h) hfalls⟩
    rw [← List.map_cons (f := Session.equity), List.getElem?_map, Option.map_eq_some_iff] at ha hb
    obtain ⟨peak, hpeak, rfl⟩ := ha
    obtain ⟨trough, htrough, rfl⟩ := hb
    exact ⟨_, _, peak, trough, hpass.order, hpeak, htrough, hfall, getD_equity hpeak, getD_equity htrough,
      getElem?_date hpeak, getElem?_date htrough, hback _ _⟩

/-! ## Main result -/

theorem analyze_dailyPnl (sqrt : K → K) (result : Result K D) :
    (analyze sqrt result).dailyPnl = differences 0 (result.daily.map Session.equity) := by
  unfold analyze
  dsimp only
  split
  · rfl
  · rfl

theorem analyze_drawdown (sqrt : K → K) (result : Result K D) :
    (analyze sqrt result).drawdown
      = drawdown (result.daily.map Session.equity) (result.daily.map Session.date) := by
  unfold analyze
  dsimp only
  split
  case isTrue hempty =>
    have hnil : result.daily = [] := by
      have hlength := congrArg List.length (List.isEmpty_iff.mp hempty)
      rw [totals, length_differences, List.length_map] at hlength
      exact List.length_eq_zero_iff.mp hlength
    rw [hnil]
    rfl
  case isFalse => rfl

/-- The points of the equity curve with their dates, the starting equity first. -/
def points (sessions : List (Session K D)) : List (K × Option D) :=
  (0, none) :: sessions.map (fun s => (s.equity, some s.date))

/-- The drawdown of a report is its worst fall from the capital the run started with. -/
structure FromStart (sessions : List (Session K D)) (p : Performance K D) : Prop where
  attained : ∃ s, s <:+: p.dailyPnl ∧ s.sum = p.drawdown.depth
  least : ∀ s, s <:+: p.dailyPnl → p.drawdown.depth ≤ s.sum
  ends : ∃ i j, i ≤ j ∧
    (points sessions)[i]? = some (p.drawdown.peakEquity, p.drawdown.peakDate) ∧
    (points sessions)[j]? = some (p.drawdown.troughEquity, p.drawdown.troughDate) ∧
    p.drawdown.troughEquity - p.drawdown.peakEquity = p.drawdown.depth ∧
    -- the sessions after the trough are those from index `j` on
    p.drawdown.recoveredDate =
      if p.drawdown.depth < 0 then
        ((sessions.drop j).find? (fun s => p.drawdown.peakEquity ≤ s.equity)).map Session.date
      else none

/-- The curve falls from one session to the same or a later one at least as far as it ever is below 0. -/
def FallsAsFar (curve : List K) : Prop := ∀ v ∈ curve, ∃ d, ChangesBy curve d ∧ d ≤ v

theorem fromStart_nil (sqrt : K → K) {result : Result K D} (hnil : result.daily = []) :
    FromStart result.daily (analyze sqrt result) := by
  have hworst := isWorst_iff_sums.mp (isWorst_singleton (0 : K))
  have hpnl := analyze_dailyPnl sqrt result
  have hdrawdown := analyze_drawdown sqrt result
  rw [hnil] at hpnl hdrawdown
  constructor
  · rw [hpnl, hdrawdown]
    exact hworst.1
  · rw [hpnl, hdrawdown]
    exact hworst.2
  · rw [hdrawdown]
    exact ⟨0, 0, le_refl 0, rfl, rfl, sub_self 0, (if_neg (lt_irrefl _)).symm⟩

/-- A reported fall lies at sessions of the run, which follow the start. -/
theorem Reports.ends_points {sessions : List (Session K D)} {d : Drawdown K D} (h : Reports sessions d) :
    ∃ i j, i ≤ j ∧ (points sessions)[i]? = some (d.peakEquity, d.peakDate) ∧
      (points sessions)[j]? = some (d.troughEquity, d.troughDate) ∧ d.troughEquity - d.peakEquity = d.depth ∧
      d.recoveredDate =
        if d.depth < 0 then ((sessions.drop j).find? (fun s => d.peakEquity ≤ s.equity)).map Session.date
        else Option.none := by
  by_cases hfalls : d.depth < 0
  · obtain ⟨i, j, peak, trough, hij, hpeak, htrough, hfall, hp, ht, hpdate, htdate, hrecovered⟩ := h.ends hfalls
    refine ⟨i + 1, j + 1, Nat.succ_le_succ hij, ?_, ?_, ?_, ?_⟩
    · rw [points, List.getElem?_cons_succ, List.getElem?_map, hpeak, hp, hpdate]
      rfl
    · rw [points, List.getElem?_cons_succ, List.getElem?_map, htrough, ht, htdate]
      rfl
    · rw [hp, ht]
      exact hfall
    · rw [if_pos hfalls]
      exact hrecovered
  · rw [h.none hfalls]
    exact ⟨0, 0, le_refl 0, rfl, rfl, sub_self 0, (if_neg (lt_irrefl _)).symm⟩

/-- The drawdown of a report is measured from the capital the run started with if and only if the curve falls at least
as far between two of its sessions as it ever is below the start. -/
theorem drawdown_from_start_iff [IsStrictOrderedRing K] (sqrt : K → K) (result : Result K D) :
    FromStart result.daily (analyze sqrt result) ↔ FallsAsFar (result.daily.map Session.equity) := by
  rcases eq_or_ne result.daily [] with hnil | hne
  · refine ⟨fun _ v hv => ?_, fun _ => fromStart_nil sqrt hnil⟩
    rw [hnil] at hv
    cases hv
  · have hreports := reports_drawdown hne
    rw [← analyze_drawdown sqrt result] at hreports
    have hpnl := analyze_dailyPnl sqrt result
    have hworst := hreports.isWorst
    have hle : (analyze sqrt result).drawdown.depth ≤ 0 := hreports.depth_le
    have hcons := isWorst_cons_iff (s := 0) hworst hle
    rw [isWorst_iff_sums, ← hpnl] at hcons
    simp only [sub_zero] at hcons
    constructor
    · intro h v hv
      exact ⟨_, hworst.changesBy, hcons.mp ⟨h.attained, h.least⟩ v hv⟩
    · intro h
      obtain ⟨hattained, hleast⟩ := hcons.mpr (fun v hv => by
        obtain ⟨d, hd, hdv⟩ := h v hv
        exact le_trans (hworst.least d hd) hdv)
      exact ⟨hattained, hleast, hreports.ends_points⟩

/-- A run that wins 100 and gives 30 back. -/
def gainingRun : Result ℚ String where
  daily := [⟨"d0", 100, 1⟩, ⟨"d1", 70, 1⟩]
  trades := 2
  realized := 70
  netRealized := 70
  finalEquity := 70

theorem drawdown_from_start_iff_gaining :
    FromStart gainingRun.daily (analyze Rat.sqrt gainingRun) ↔ FallsAsFar (gainingRun.daily.map Session.equity) :=
  drawdown_from_start_iff Rat.sqrt gainingRun

/-- A run whose only session loses 100 has no drawdown. -/
def losingRun : Result ℚ String where
  daily := [⟨"d0", -100, 1⟩]
  trades := 2
  realized := -100
  netRealized := -100
  finalEquity := -100

theorem losing_run_has_no_drawdown :
    (analyze Rat.sqrt losingRun).drawdown.depth = 0 ∧ ¬ FromStart losingRun.daily (analyze Rat.sqrt losingRun) := by
  have hdepth : (analyze Rat.sqrt losingRun).drawdown.depth = 0 := by
    rw [analyze_drawdown]
    decide +kernel
  refine ⟨hdepth, fun h => ?_⟩
  have hleast := h.least (analyze Rat.sqrt losingRun).dailyPnl (List.infix_refl _)
  rw [hdepth, analyze_dailyPnl] at hleast
  norm_num [losingRun, differences] at hleast

end Analysis

end Volforge
