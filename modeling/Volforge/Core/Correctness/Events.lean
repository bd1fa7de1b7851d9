import Volforge.Core.Lookahead

/-!
# `Core.Correctness.Events` — replay order

A fresh cursor over a session that keeps its contract yields every observation of the session in time order,
whether it walks the precomputed index or merges the runs of the instruments; the times a replay steps through
are the distinct times of the observations, ascending.

A truncated session keeps the contract, and its steps are those of the session up to the cutoff.
-/

namespace Volforge

/-- The order of a replay: by time, instrument and row. -/
def Event.Earlier (a b : Event) : Prop :=
  a.ts < b.ts ∨ a.ts = b.ts ∧ (a.instrument < b.instrument ∨ a.instrument = b.instrument ∧ a.row < b.row)

namespace EventCursor

/-! ## The merge -/

/-- What is still unread of a run. -/
def Run.Holds (s : SessionData) (r : Run) (e : Event) : Prop :=
  e.instrument = r.instrument ∧ r.row ≤ e.row ∧ e.row < r.stop ∧ e.ts = (s.quotes r.instrument).time e.row

/-- The entries of the heap are the heads of runs that are not empty. -/
structure Run.IsHead (s : SessionData) (r : Run) : Prop where
  unread : r.row < r.stop
  stop : r.stop = (s.quotes r.instrument).size
  ts : r.ts = (s.quotes r.instrument).time r.row

/-- The number of rows still to be read. -/
def unread (heap : List Run) : Nat := (heap.map (fun r => r.stop - r.row)).sum

theorem Run.before_iff {a b : Run} :
    a.before b = true ↔ a.ts < b.ts ∨ (a.ts = b.ts ∧ a.instrument < b.instrument) := by
  unfold Run.before
  by_cases heq : a.ts = b.ts
  · simp [heq]
  · simp [heq]

theorem popHeap_eq_none {heap : List Run} : popHeap heap = none ↔ heap = [] := by
  cases heap with
  | nil => simp [popHeap]
  | cons r rs =>
      simp only [popHeap, reduceCtorEq, iff_false]
      split
      · simp
      · split <;> simp

/-- **The top of the heap** is the earliest head; the other ones are left. -/
theorem popHeap_spec {heap rest : List Run} {m : Run} (h : popHeap heap = some (m, rest)) :
    heap.Perm (m :: rest) ∧ ∀ r ∈ rest, ¬ r.before m = true := by
  induction heap generalizing m rest with
  | nil => cases h
  | cons r rs ih =>
      simp only [popHeap] at h
      cases hp : popHeap rs with
      | none =>
          rw [hp] at h
          cases h
          rw [popHeap_eq_none.mp hp]
          exact ⟨.refl _, by simp⟩
      | some top =>
          obtain ⟨m', rest'⟩ := top
          obtain ⟨hperm, hmin⟩ := ih hp
          simp only [hp] at h
          by_cases hb : m'.before r = true
          · -- `r` stays behind the top of the others
            rw [if_pos hb] at h
            cases h
            refine ⟨(hperm.cons r).trans (.swap ..), fun x hx => ?_⟩
            obtain rfl | hx := List.mem_cons.mp hx
            · rw [Run.before_iff] at hb ⊢
              lia
            · exact hmin x hx
          · -- `r` is the top
            rw [if_neg hb] at h
            cases h
            refine ⟨hperm.cons r, fun x hx => ?_⟩
            obtain rfl | hx := List.mem_cons.mp hx
            · exact hb
            · have hlast := hmin x hx
              rw [Run.before_iff] at hb hlast ⊢
              lia

/-- The cursor after the head of run `m` has been emitted. -/
def advance (s : SessionData) (m : Run) (rest : List Run) : List Run :=
  if m.row + 1 < m.stop then
    { m with row := m.row + 1, ts := (s.quotes m.instrument).time (m.row + 1) } :: rest
  else rest

theorem next_heap (s : SessionData) (heap : List Run) :
    next s ⟨[], 0, heap⟩ = (popHeap heap).map (fun top =>
      ({ ts := top.1.ts, instrument := top.1.instrument, row := top.1.row }, ⟨[], 0, advance s top.1 top.2⟩)) := by
  unfold next
  simp only [List.isEmpty_nil, Bool.not_true, Bool.false_eq_true, if_false]
  cases popHeap heap with
  | none => rfl
  | some top =>
      obtain ⟨m, rest⟩ := top
      simp only [Option.map_some, advance]
      split <;> rfl

variable {s : SessionData}

/-- What a run holds is its head and what the rest of it holds. -/
theorem exists_holds_advance {m : Run} {rest : List Run} (hm : m.IsHead s) {e : Event} :
    (∃ r ∈ m :: rest, r.Holds s e) ↔
      e = { ts := m.ts, instrument := m.instrument, row := m.row } ∨ ∃ r ∈ advance s m rest, r.Holds s e := by
  have hsplit : m.Holds s e ↔ e = { ts := m.ts, instrument := m.instrument, row := m.row } ∨
      (e.instrument = m.instrument ∧ m.row + 1 ≤ e.row ∧ e.row < m.stop ∧
        e.ts = (s.quotes m.instrument).time e.row) := by
    constructor
    · rintro ⟨hi, hlo, hhi, ht⟩
      rcases Nat.lt_or_eq_of_le hlo with hlt | heq
      · exact .inr ⟨hi, hlt, hhi, ht⟩
      · left
        obtain ⟨ts, inst, row⟩ := e
        simp only at hi heq ht
        simp [hi, heq, ht, hm.ts]
    · rintro (rfl | ⟨hi, hlo, hhi, ht⟩)
      · exact ⟨rfl, Nat.le_refl _, hm.unread, hm.ts⟩
      · exact ⟨hi, by omega, hhi, ht⟩
  rw [List.exists_mem_cons_iff, hsplit, or_assoc]
  apply or_congr_right
  unfold advance
  by_cases hmore : m.row + 1 < m.stop
  · rw [if_pos hmore, List.exists_mem_cons_iff]
    rfl
  · rw [if_neg hmore]
    have hnone : ¬ (e.instrument = m.instrument ∧ m.row + 1 ≤ e.row ∧ e.row < m.stop ∧
        e.ts = (s.quotes m.instrument).time e.row) := by
      rintro ⟨_, hlo, hhi, _⟩
      omega
    exact or_iff_right hnone

theorem isHead_advance {m : Run} {rest : List Run} (hm : m.IsHead s) (hrest : ∀ r ∈ rest, r.IsHead s) :
    ∀ r ∈ advance s m rest, r.IsHead s := by
  unfold advance
  by_cases hmore : m.row + 1 < m.stop
  · rw [if_pos hmore]
    intro r hr
    obtain rfl | hr := List.mem_cons.mp hr
    · exact ⟨hmore, hm.stop, rfl⟩
    · exact hrest r hr
  · rw [if_neg hmore]
    exact hrest

theorem unread_advance {m : Run} {rest : List Run} (hm : m.IsHead s) :
    unread (advance s m rest) + 1 = unread (m :: rest) := by
  have hunread := hm.unread
  unfold advance unread
  by_cases hmore : m.row + 1 < m.stop
  · rw [if_pos hmore]
    simp only [List.map_cons, List.sum_cons]
    omega
  · rw [if_neg hmore]
    simp only [List.map_cons, List.sum_cons]
    omega

/-- The unread events of a heap all come no earlier than its earliest head. -/
theorem Run.Holds.le_ts (hasc : ∀ id, (s.quotes id).Ascending) {r : Run} (hr : r.IsHead s) {e : Event}
    (h : r.Holds s e) : r.ts ≤ e.ts := by
  obtain ⟨_, hlo, hhi, ht⟩ := h
  rw [hr.stop] at hhi
  rw [hr.ts, ht]
  have hrow : r.row < (s.quotes r.instrument).ts.length := by
    have := hr.unread
    rw [hr.stop] at this
    exact this
  rcases Nat.lt_or_eq_of_le hlo with hlt | heq
  · rw [QuoteColumns.time_eq_getElem hrow, QuoteColumns.time_eq_getElem hhi]
    exact List.pairwise_iff_getElem.mp (hasc r.instrument) _ _ hrow hhi hlt
  · rw [heq]

/-- Advancing the top of the heap keeps the instruments apart. -/
theorem advance_instruments {m : Run} {rest : List Run} (h : ((m :: rest).map (·.instrument)).Nodup) :
    ((advance s m rest).map (·.instrument)).Nodup := by
  unfold advance
  split
  · exact h
  · exact (List.nodup_cons.mp h).2

/-- The head of the first run comes before everything else that is unread. -/
theorem earlier_of_advance (hasc : ∀ id, (s.quotes id).Ascending) {m : Run} {rest : List Run} (hm : m.IsHead s)
    (hrest : ∀ r ∈ rest, r.IsHead s) (hmin : ∀ r ∈ rest, ¬ r.before m = true)
    (hnodup : ((m :: rest).map (·.instrument)).Nodup) {e : Event} (he : ∃ r ∈ advance s m rest, r.Holds s e) :
    Event.Earlier { ts := m.ts, instrument := m.instrument, row := m.row } e := by
  -- an event of another run is no earlier than its head, and the head of `m` was taken first
  have hother : (∃ r ∈ rest, r.Holds s e) →
      Event.Earlier { ts := m.ts, instrument := m.instrument, row := m.row } e := by
    rintro ⟨r, hr, hre⟩
    have hts := hre.le_ts hasc (hrest r hr)
    have hne : m.instrument ≠ r.instrument := by
      intro heq
      exact (List.nodup_cons.mp hnodup).1 (List.mem_map.mpr ⟨r, hr, heq.symm⟩)
    have hfirst := hmin r hr
    rw [Run.before_iff] at hfirst
    unfold Event.Earlier
    rw [hre.1]
    dsimp only
    lia
  unfold advance at he
  by_cases hmore : m.row + 1 < m.stop
  · rw [if_pos hmore, List.exists_mem_cons_iff] at he
    obtain ⟨hi, hlo, hhi, ht⟩ | he := he
    · -- a later row of the same run
      have hts : m.ts ≤ e.ts :=
        Run.Holds.le_ts hasc hm ⟨hi, Nat.le_of_succ_le hlo, hhi, ht⟩
      have hlo : m.row + 1 ≤ e.row := hlo
      have hi : e.instrument = m.instrument := hi
      unfold Event.Earlier
      rw [hi]
      dsimp only
      lia
    · exact hother he
  · rw [if_neg hmore] at he
    exact hother he

/-- **The merge is a replay**: with fuel for all its rows, it emits exactly what the runs hold, in order. -/
theorem drain_heap (hasc : ∀ id, (s.quotes id).Ascending) (fuel : Nat) (heap : List Run)
    (hheap : ∀ r ∈ heap, r.IsHead s) (hnodup : (heap.map (·.instrument)).Nodup) (hfuel : unread heap ≤ fuel) :
    (drain s fuel ⟨[], 0, heap⟩).Pairwise Event.Earlier ∧
      ∀ e, e ∈ drain s fuel ⟨[], 0, heap⟩ ↔ ∃ r ∈ heap, r.Holds s e := by
  induction fuel generalizing heap with
  | zero =>
      have hempty : heap = [] := by
        cases heap with
        | nil => rfl
        | cons r rs =>
            have := (hheap r (List.mem_cons_self ..)).unread
            simp only [unread, List.map_cons, List.sum_cons] at hfuel
            omega
      simp [drain, hempty]
  | succ fuel ih =>
      unfold drain
      rw [next_heap]
      cases hp : popHeap heap with
      | none => simp [popHeap_eq_none.mp hp]
      | some top =>
          obtain ⟨m, rest⟩ := top
          obtain ⟨hperm, hmin⟩ := popHeap_spec hp
          have hm : m.IsHead s := hheap m (hperm.mem_iff.mpr (List.mem_cons_self ..))
          have hrest : ∀ r ∈ rest, r.IsHead s := fun r hr =>
            hheap r (hperm.mem_iff.mpr (List.mem_cons_of_mem _ hr))
          have hcount : unread (advance s m rest) + 1 = unread heap := by
            rw [unread_advance hm]
            exact (hperm.map _).sum_eq.symm
          have hapart : ((m :: rest).map (·.instrument)).Nodup := (hperm.map _).nodup_iff.mp hnodup
          obtain ⟨hpair, hmem⟩ :=
            ih (advance s m rest) (isHead_advance hm hrest) (advance_instruments hapart) (by omega)
          have hholds : ∀ e, (∃ r ∈ heap, r.Holds s e) ↔ ∃ r ∈ m :: rest, r.Holds s e := by
            intro e
            exact exists_congr (fun r => and_congr_left' hperm.mem_iff)
          simp only [Option.map_some, List.pairwise_cons, List.mem_cons]
          refine ⟨⟨fun e he => ?_, hpair⟩, fun e => ?_⟩
          · exact earlier_of_advance hasc hm hrest hmin hapart ((hmem e).mp he)
          · rw [hmem, hholds, exists_holds_advance hm]

/-- The walk along a precomputed order. -/
theorem drain_order {order : List Event} (hne : order ≠ []) (fuel pos : Nat) :
    drain s fuel ⟨order, pos, []⟩ = (order.drop pos).take fuel := by
  induction fuel generalizing pos with
  | zero => simp [drain]
  | succ fuel ih =>
      unfold drain next
      have hcached : (!order.isEmpty) = true := by simpa using hne
      simp only [hcached, if_true]
      cases hpos : order[pos]? with
      | none =>
          have hend : order.length ≤ pos := List.getElem?_eq_none_iff.mp hpos
          simp [List.drop_eq_nil_of_le hend]
      | some e =>
          obtain ⟨hlt, rfl⟩ := List.getElem?_eq_some_iff.mp hpos
          rw [List.drop_eq_getElem_cons hlt, List.take_succ_cons, ← ih]

end EventCursor

/-! ## The replay of a session -/

namespace SessionData

open EventCursor

/-- The heads a fresh cursor starts from. -/
theorem mem_heads {s : SessionData} (hc : s.Contract) {r : EventCursor.Run} :
    r ∈ s.instruments.filterMap (headRun s) ↔ r.instrument ∈ s.instruments ∧ r.row = 0 ∧ r.IsHead s := by
  rw [List.mem_filterMap]
  constructor
  · rintro ⟨id, hid, hr⟩
    unfold headRun at hr
    dsimp only at hr
    by_cases hemp : (s.quotes id).isEmpty = true
    · rw [if_pos hemp] at hr
      cases hr
    · rw [if_neg hemp] at hr
      cases hr
      have hstop : (s.quotes id).size % 2 ^ 32 = (s.quotes id).size := Nat.mod_eq_of_lt (hc.located id)
      have hpos : 0 < (s.quotes id).size := by
        simp only [QuoteColumns.isEmpty, List.isEmpty_iff] at hemp
        exact List.length_pos_iff.mpr hemp
      exact ⟨hid, rfl, by rw [hstop]; exact hpos, hstop, rfl⟩
  · rintro ⟨hid, hrow, hunread, hstop, hts⟩
    refine ⟨r.instrument, hid, ?_⟩
    have hne : ¬ (s.quotes r.instrument).isEmpty = true := by
      intro hemp
      simp only [QuoteColumns.isEmpty, List.isEmpty_iff] at hemp
      simp [hstop, QuoteColumns.size, hemp] at hunread
    unfold headRun
    dsimp only
    rw [if_neg hne, Nat.mod_eq_of_lt (hc.located _), ← hstop, ← hrow, ← hts]

theorem unread_heads_le (s : SessionData) (ids : List InstrumentId) :
    unread (ids.filterMap (headRun s)) ≤ (ids.map (fun id => (s.quotes id).size)).sum := by
  induction ids with
  | nil => simp [unread]
  | cons id ids ih =>
      rw [List.filterMap_cons, List.map_cons, List.sum_cons]
      unfold headRun
      dsimp only
      split
      · exact le_trans ih (Nat.le_add_left ..)
      · next r hr =>
          have hle : r.stop - r.row ≤ (s.quotes id).size := by
            split at hr
            · cases hr
            · cases hr
              exact le_trans (Nat.sub_le ..) (Nat.mod_le ..)
          exact Nat.add_le_add hle ih

theorem heads_instruments {s : SessionData} {ids : List InstrumentId} (h : ids.Nodup) :
    ((ids.filterMap (headRun s)).map (·.instrument)).Nodup := by
  refine List.Nodup.sublist ?_ h
  induction ids with
  | nil => simp
  | cons id ids ih =>
      have hrest := ih (List.nodup_cons.mp h).2
      rw [List.filterMap_cons]
      split
      · exact hrest.cons id
      · next r hr =>
          have hid : r.instrument = id := by
            unfold headRun at hr
            dsimp only at hr
            split at hr
            · cases hr
            · cases hr
              rfl
          rw [List.map_cons, hid]
          exact hrest.cons_cons id

/-- **Merging the runs** yields every observation once, by time, instrument and row. -/
theorem merge_spec {s : SessionData} (hc : s.Contract) {fuel : Nat}
    (hfuel : (s.instruments.map (fun id => (s.quotes id).size)).sum ≤ fuel) :
    (EventCursor.drain s fuel ⟨[], 0, s.instruments.filterMap (headRun s)⟩).Pairwise Event.Earlier ∧
      ∀ e, e ∈ EventCursor.drain s fuel ⟨[], 0, s.instruments.filterMap (headRun s)⟩ ↔ s.Locates e := by
  have hheap : ∀ r ∈ s.instruments.filterMap (headRun s), r.IsHead s :=
    fun r hr => ((mem_heads hc).mp hr).2.2
  obtain ⟨hpair, hmem⟩ := drain_heap hc.ascending fuel _ hheap (heads_instruments hc.nodup)
    (le_trans (unread_heads_le s s.instruments) hfuel)
  refine ⟨hpair, fun e => (hmem e).trans ?_⟩
  constructor
  · rintro ⟨r, hr, hi, _, hhi, ht⟩
    obtain ⟨hid, _, hhead⟩ := (mem_heads hc).mp hr
    rw [hhead.stop] at hhi
    rw [← hi] at hid hhi ht
    exact ⟨hid, hhi, ht⟩
  · rintro ⟨hid, hrow, ht⟩
    have hpos : 0 < (s.quotes e.instrument).size := Nat.lt_of_le_of_lt (Nat.zero_le _) hrow
    exact ⟨⟨e.instrument, 0, (s.quotes e.instrument).size, (s.quotes e.instrument).time 0⟩,
      (mem_heads hc).mpr ⟨hid, rfl, hpos, rfl, rfl⟩, rfl, Nat.zero_le _, hrow, ht⟩

/-- **A replay is complete and in order.** -/
theorem events_spec {s : SessionData} (hc : s.Contract) :
    s.events.Pairwise (fun a b => a.ts ≤ b.ts) ∧ ∀ e, e ∈ s.events ↔ s.Locates e := by
  unfold events EventCursor.new
  by_cases hcached : s.eventOrder = []
  · simp only [hcached, List.isEmpty_nil, Bool.not_true, Bool.false_eq_true, if_false]
    have hfuel : (s.instruments.map (fun id => (s.quotes id).size)).sum ≤ s.eventBound := Nat.le_add_left ..
    obtain ⟨hpair, hmem⟩ := merge_spec hc hfuel
    refine ⟨hpair.imp (fun {a b} hab => ?_), hmem⟩
    unfold Event.Earlier at hab
    lia
  · have hne : (!s.eventOrder.isEmpty) = true := by simpa using hcached
    have hall : s.eventOrder.length ≤ s.eventBound := Nat.le_add_right ..
    rw [if_pos hne, drain_order hcached, List.drop_zero, List.take_of_length_le hall]
    exact hc.eventOrder.resolve_left hcached

/-! ## The times of a replay -/

theorem dropRepeats_spec {seen : Timestamp} {es : List Event} (hasc : es.Pairwise (fun a b => a.ts ≤ b.ts))
    (hseen : ∀ e ∈ es, seen ≤ e.ts) :
    (dropRepeats seen es).Pairwise (· < ·) ∧
      ∀ t, t ∈ dropRepeats seen es ↔ seen < t ∧ ∃ e ∈ es, e.ts = t := by
  induction es generalizing seen with
  | nil => simp [dropRepeats]
  | cons e es ih =>
      obtain ⟨he, hasc⟩ := List.pairwise_cons.mp hasc
      unfold dropRepeats
      by_cases heq : e.ts = seen
      · -- a repeat of the time before
        obtain ⟨hpair, hmem⟩ := ih hasc (fun x hx => hseen x (List.mem_cons_of_mem _ hx))
        rw [if_pos heq]
        refine ⟨hpair, fun t => (hmem t).trans ?_⟩
        rw [List.exists_mem_cons_iff, heq]
        constructor
        · exact fun ⟨hlt, hex⟩ => ⟨hlt, .inr hex⟩
        · rintro ⟨hlt, rfl | hex⟩
          · exact (lt_irrefl _ hlt).elim
          · exact ⟨hlt, hex⟩
      · have hlt : seen < e.ts := lt_of_le_of_ne (hseen e (List.mem_cons_self ..)) (Ne.symm heq)
        obtain ⟨hpair, hmem⟩ := ih hasc he
        rw [if_neg heq]
        refine ⟨List.pairwise_cons.mpr ⟨fun t ht => ((hmem t).mp ht).1, hpair⟩, fun t => ?_⟩
        rw [List.mem_cons, hmem, List.exists_mem_cons_iff]
        constructor
        · rintro (rfl | ⟨hgt, hex⟩)
          · exact ⟨hlt, .inl rfl⟩
          · exact ⟨lt_trans hlt hgt, .inr hex⟩
        · rintro ⟨_, rfl | ⟨x, hx, rfl⟩⟩
          · exact .inl rfl
          · rcases lt_or_eq_of_le (he x hx) with hgt | heq'
            · exact .inr ⟨hgt, x, hx, rfl⟩
            · exact .inl heq'.symm

theorem kNoTime_le_time (c : QuoteColumns) (i : Nat) : kNoTime ≤ c.time i :=
  Int64.le_toInt _

/-- The times that merging finds: all but `kNoTime`, the value the loop starts from. -/
theorem mergedTimes_spec {s : SessionData} (hc : s.Contract) :
    (dropRepeats kNoTime s.events).Pairwise (· < ·) ∧
      ∀ t, t ∈ dropRepeats kNoTime s.events ↔ kNoTime < t ∧ s.PrintsAt t := by
  obtain ⟨hasc, hmem⟩ := events_spec hc
  have hseen : ∀ e ∈ s.events, kNoTime ≤ e.ts := by
    intro e he
    obtain ⟨_, _, hts⟩ := (hmem e).mp he
    rw [hts]
    exact kNoTime_le_time _ _
  obtain ⟨hpair, hdrop⟩ := dropRepeats_spec hasc hseen
  refine ⟨hpair, fun t => (hdrop t).trans (and_congr_right' ?_)⟩
  constructor
  · rintro ⟨e, he, rfl⟩
    obtain ⟨hid, hrow, hts⟩ := (hmem e).mp he
    exact ⟨e.instrument, hid, e.row, hrow, hts.symm⟩
  · rintro ⟨id, hid, row, hrow, rfl⟩
    exact ⟨⟨(s.quotes id).time row, id, row⟩, (hmem _).mpr ⟨hid, hrow, rfl⟩, rfl⟩

/-- **The steps of a replay** are the distinct times of the observations, ascending. -/
theorem steps_spec {s : SessionData} (hc : s.Contract) :
    s.steps.Pairwise (· < ·) ∧ ∀ t, kNoTime < t → (t ∈ s.steps ↔ s.PrintsAt t) := by
  unfold steps
  by_cases htl : s.timeline.isEmpty = true
  · rw [if_pos htl]
    obtain ⟨hpair, hmem⟩ := mergedTimes_spec hc
    exact ⟨hpair, fun t ht => by rw [hmem t, and_iff_right ht]⟩
  · rw [if_neg htl]
    have hline := hc.timeline.resolve_left (by simpa using htl)
    exact ⟨hline.ascending, fun t _ => hline.mem_iff t⟩

/-! ## Truncation -/

theorem clipCount_eq (s : SessionData) (cutoff : Timestamp) (id : InstrumentId) :
    s.clipCount cutoff id = (s.quotes id).upperBound cutoff := by
  unfold clipCount QuoteColumns.indexAtOrBefore
  cases (s.quotes id).upperBound cutoff with
  | zero => rfl
  | succ k => rfl

/-- Columns without a row are the default ones. -/
theorem first_zero (c : QuoteColumns) : c.first 0 = {} := by
  simp [QuoteColumns.first]

/-- **The clipped columns** of every instrument are its rows up to the cutoff. -/
theorem clipQuotes_eq {s : SessionData} (hc : s.Contract) (cutoff : Timestamp) (id : InstrumentId) :
    s.clipQuotes cutoff id = (s.quotes id).first ((s.quotes id).upperBound cutoff) := by
  unfold clipQuotes
  by_cases hkept : id ∈ s.instruments.filter (s.keeps cutoff)
  · rw [if_pos hkept, clipCount_eq]
  · rw [if_neg hkept]
    have hzero : (s.quotes id).upperBound cutoff = 0 := by
      by_cases hid : id ∈ s.instruments
      · have hdrop : ¬ s.keeps cutoff id = true := fun hk => hkept (List.mem_filter.mpr ⟨hid, hk⟩)
        unfold keeps at hdrop
        rw [Bool.and_eq_true, not_and_or] at hdrop
        obtain hemp | hnone := hdrop
        · have hlen : (s.quotes id).size = 0 := by
            simpa [QuoteColumns.isEmpty, QuoteColumns.size] using hemp
          exact Nat.le_zero.mp (hlen ▸ (s.quotes id).upperBound_le_size cutoff)
        · rw [← QuoteColumns.indexAtOrBefore_eq_none]
          simpa using hnone
      · have hlen : (s.quotes id).size = 0 := by simp [QuoteColumns.size, hc.listed id hid]
        exact Nat.le_zero.mp (hlen ▸ (s.quotes id).upperBound_le_size cutoff)
    rw [hzero, first_zero]

theorem truncate_quotes {s : SessionData} (hc : s.Contract) (cutoff : Timestamp) (id : InstrumentId) :
    (s.truncate cutoff).quotes id = (s.quotes id).first ((s.quotes id).upperBound cutoff) :=
  clipQuotes_eq hc cutoff id

/-- **A truncated session keeps the contract.** -/
theorem truncate_contract {s : SessionData} (hc : s.Contract) (cutoff : Timestamp) :
    (s.truncate cutoff).Contract where
  nodup := hc.nodup.filter _
  listed id hid := by
    have hkept : id ∉ s.instruments.filter (s.keeps cutoff) := hid
    show (s.clipQuotes cutoff id).ts = []
    unfold clipQuotes
    rw [if_neg hkept]
  aligned id := by
    rw [truncate_quotes hc]
    exact (hc.aligned id).first _
  ascending id := by
    rw [truncate_quotes hc]
    exact (hc.ascending id).first _
  located id := by
    rw [truncate_quotes hc, QuoteColumns.first_size]
    exact lt_of_le_of_lt (Nat.min_le_right ..) (hc.located id)
  total := by
    show ((s.instruments.filter (s.keeps cutoff)).map (s.clipCount cutoff)).sum = _
    congr 1
    refine List.map_congr_left (fun id _ => ?_)
    rw [truncate_quotes hc, QuoteColumns.first_size, clipCount_eq,
      Nat.min_eq_left ((s.quotes id).upperBound_le_size cutoff)]
  eventOrder := .inl rfl
  timeline := .inl rfl
  printedBy _ _ := rfl

/-- The observations of a truncated session are those at or before the cutoff. -/
theorem printsAt_truncate {s : SessionData} (hc : s.Contract) (cutoff t : Timestamp) :
    (s.truncate cutoff).PrintsAt t ↔ s.PrintsAt t ∧ t ≤ cutoff := by
  unfold PrintsAt
  constructor
  · rintro ⟨id, hid, row, hrow, rfl⟩
    rw [truncate_quotes hc, QuoteColumns.first_size] at hrow
    have hlt : row < (s.quotes id).upperBound cutoff := lt_of_lt_of_le hrow (Nat.min_le_left ..)
    have htime : ((s.truncate cutoff).quotes id).time row = (s.quotes id).time row := by
      rw [truncate_quotes hc]
      exact congrArg Quote.ts (QuoteColumns.atRow_first _ hlt)
    rw [htime]
    exact ⟨⟨id, (List.mem_filter.mp hid).1, row, lt_of_lt_of_le hrow (Nat.min_le_right ..), rfl⟩,
      QuoteColumns.time_le_of_lt_upperBound hlt⟩
  · rintro ⟨⟨id, hid, row, hrow, rfl⟩, hle⟩
    have hlt : row < (s.quotes id).upperBound cutoff :=
      (QuoteColumns.lt_upperBound_iff (hc.ascending id) hrow).mpr hle
    refine ⟨id, List.mem_filter.mpr ⟨hid, ?_⟩, row, ?_, ?_⟩
    · have hsome : ((s.quotes id).indexAtOrBefore cutoff).isSome = true := by
        rw [← Option.ne_none_iff_isSome, Ne, QuoteColumns.indexAtOrBefore_eq_none]
        omega
      simp [keeps, QuoteColumns.isEmpty_eq_false hrow, hsome]
    · rw [truncate_quotes hc, QuoteColumns.first_size]
      exact lt_min hlt hrow
    · rw [truncate_quotes hc]
      exact congrArg Quote.ts (QuoteColumns.atRow_first _ hlt)

/-- **The steps of a truncated replay** are those of the whole one up to the cutoff. -/
theorem steps_truncate {s : SessionData} (hc : s.Contract) (cutoff : Timestamp)
    (hpos : ∀ t ∈ s.steps, kNoTime < t) :
    (s.truncate cutoff).steps = s.steps.filter (· ≤ cutoff) := by
  obtain ⟨hasc, hmem⟩ := steps_spec hc
  obtain ⟨hasc', hmem'⟩ := mergedTimes_spec (truncate_contract hc cutoff)
  refine Sorted.eq_of_mem_iff hasc' (hasc.sublist (List.filter_sublist ..)) (fun t => ?_)
  show t ∈ dropRepeats kNoTime (s.truncate cutoff).events ↔ _
  rw [hmem', printsAt_truncate hc, List.mem_filter, decide_eq_true_eq]
  constructor
  · rintro ⟨hlt, hprint, hle⟩
    exact ⟨(hmem t hlt).mpr hprint, hle⟩
  · rintro ⟨ht, hle⟩
    have hlt := hpos t ht
    exact ⟨hlt, (hmem t hlt).mp ht, hle⟩

/-- What an instrument answers at an instant up to the cutoff. -/
theorem quoteAt_first (c : QuoteColumns) {now cutoff : Timestamp} (h : now ≤ cutoff) (back : Nat) :
    (c.first (c.upperBound cutoff)).quoteAt now back = c.quoteAt now back := by
  unfold QuoteColumns.quoteAt
  rw [c.indexAtOrBefore_first h]
  cases hidx : c.indexAtOrBefore now with
  | none => simp
  | some idx =>
      have hlt : idx < c.upperBound cutoff := by
        have := c.upperBound_mono h
        rw [QuoteColumns.indexAtOrBefore_eq_some.mp hidx] at this
        omega
      have hsize : idx < c.size := QuoteColumns.indexAtOrBefore_lt_size hidx
      have hsize' : idx < (c.first (c.upperBound cutoff)).size := by
        rw [QuoteColumns.first_size]
        exact lt_min hlt hsize
      rw [QuoteColumns.isEmpty_eq_false hsize', QuoteColumns.isEmpty_eq_false hsize]
      dsimp only
      rw [c.atRow_first (lt_of_le_of_lt (Nat.sub_le ..) hlt)]

theorem lookPrintedBy_eq (quotes : InstrumentId → QuoteColumns) (id : InstrumentId) (t : Timestamp) :
    lookPrintedBy quotes id t = ((quotes id).indexAtOrBefore t).isSome := by
  unfold lookPrintedBy
  cases hidx : (quotes id).indexAtOrBefore t with
  | none => simp
  | some idx => simp [QuoteColumns.isEmpty_eq_false (QuoteColumns.indexAtOrBefore_lt_size hidx)]

/-- **A truncated session shows the same** at every instant up to the cutoff. -/
theorem view_truncate {s : SessionData} (hc : s.Contract) {now cutoff : Timestamp} (h : now ≤ cutoff) :
    (s.truncate cutoff).view now = s.view now := by
  have hquote : ∀ id back, ((s.truncate cutoff).quotes id).quoteAt now back =
      (s.quotes id).quoteAt now back := by
    intro id back
    rw [truncate_quotes hc, quoteAt_first _ h]
  have hprinted : ∀ id, (s.truncate cutoff).printedBy id now = s.printedBy id now := by
    intro id
    rw [(truncate_contract hc cutoff).printedBy, hc.printedBy]
    rw [lookPrintedBy_eq, lookPrintedBy_eq, truncate_quotes hc, QuoteColumns.indexAtOrBefore_first _ h]
  unfold view
  rw [MarketView.mk.injEq]
  exact ⟨rfl, rfl, funext (fun id => funext (hquote id)), funext hprinted⟩

end SessionData

end Volforge
