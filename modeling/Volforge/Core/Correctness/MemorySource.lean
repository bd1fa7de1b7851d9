import Volforge.Core.Correctness.Events
import Volforge.Core.MemorySource
import Volforge.Lib.Run

/-!
# `Core.Correctness.MemorySource` — the cached order is the merged order

Whatever is appended and whenever the order is built, a session in memory keeps its contract (`Built`), and a
cursor over it yields one and the same sequence along the cached order and by merging.

## Contents
- **The map.** What `modifySeries` changes.
- **The sort.** `build_event_order` lists every row once, by time, instrument and row.
- **Sessions in memory.** `Built`, one preservation lemma for each operation, and the contract.
-/

namespace Volforge

namespace MemorySessionData

/-! ## The map -/

section
variable {id : InstrumentId} {f : QuoteColumns → QuoteColumns} {m : List (InstrumentId × QuoteColumns)}

/-- Either the series is new, or it is changed where it stands. -/
theorem modifySeries_cases (id : InstrumentId) (f : QuoteColumns → QuoteColumns)
    (hm : (m.map (·.1)).Pairwise (· < ·)) :
    (m.lookup id = none ∧ (modifySeries id f m).Perm ((id, f {}) :: m)) ∨
      ∃ before c after, m = before ++ (id, c) :: after ∧ m.lookup id = some c ∧
        modifySeries id f m = before ++ (id, f c) :: after := by
  induction m with
  | nil => exact .inl ⟨rfl, .refl _⟩
  | cons x rest ih =>
      obtain ⟨key, c⟩ := x
      obtain ⟨hkey, hrest⟩ := List.pairwise_cons.mp hm
      unfold modifySeries
      split_ifs with hlt heq
      · -- the keys further on are larger still
        refine .inl ⟨?_, .refl _⟩
        rw [List.lookup_eq_none_iff]
        intro y hy
        obtain rfl | hy := List.mem_cons.mp hy
        · simpa using ne_of_lt hlt
        · have hy : key < y.1 := hkey y.1 (List.mem_map.mpr ⟨y, hy, rfl⟩)
          simpa using ne_of_lt (lt_trans hlt hy)
      · refine .inr ⟨[], c, rest, ?_, ?_, ?_⟩
        · rw [heq, List.nil_append]
        · rw [heq, List.lookup_cons_self]
        · rw [heq, List.nil_append]
      · have hlookup : ((key, c) :: rest).lookup id = rest.lookup id := by
          rw [List.lookup_cons, beq_false_of_ne heq]
        rw [hlookup]
        obtain ⟨hnone, hperm⟩ | ⟨before, c', after, hsplit, hsome, heq'⟩ := ih hrest
        · exact .inl ⟨hnone, (hperm.cons _).trans (.swap ..)⟩
        · exact .inr ⟨(key, c) :: before, c', after, by rw [hsplit, List.cons_append], hsome,
            by rw [heq', List.cons_append]⟩

theorem modifySeries_keys (hm : (m.map (·.1)).Pairwise (· < ·)) :
    ((modifySeries id f m).map (·.1)).Pairwise (· < ·) := by
  induction m with
  | nil => simp [modifySeries]
  | cons x rest ih =>
      obtain ⟨key, c⟩ := x
      obtain ⟨hkey, hrest⟩ := List.pairwise_cons.mp hm
      unfold modifySeries
      split_ifs with hlt heq
      · refine List.pairwise_cons.mpr ⟨fun k hk => ?_, hm⟩
        obtain rfl | hk := List.mem_cons.mp hk
        · exact hlt
        · exact lt_trans hlt (hkey k hk)
      · exact List.pairwise_cons.mpr ⟨hkey, hrest⟩
      · refine List.pairwise_cons.mpr ⟨fun k hk => ?_, ih hrest⟩
        obtain ⟨y, hy, rfl⟩ := List.mem_map.mp hk
        have hbigger : key < id := lt_of_le_of_ne (not_lt.mp hlt) (Ne.symm heq)
        obtain ⟨_, hperm⟩ | ⟨before, c', after, hsplit, _, heq'⟩ := modifySeries_cases id f hrest
        · obtain rfl | hy := List.mem_cons.mp (hperm.mem_iff.mp hy)
          · exact hbigger
          · exact hkey _ (List.mem_map.mpr ⟨y, hy, rfl⟩)
        · rw [heq'] at hy
          rw [hsplit] at hkey
          obtain hy | hy := List.mem_append.mp hy
          · exact hkey _ (List.mem_map.mpr ⟨y, List.mem_append_left _ hy, rfl⟩)
          · obtain rfl | hy := List.mem_cons.mp hy
            · exact hbigger
            · exact hkey _ (List.mem_map.mpr ⟨y, List.mem_append_right _ (List.mem_cons_of_mem _ hy), rfl⟩)

/-- What a map ascending by its keys finds is what it holds. -/
theorem lookup_eq_some (hm : (m.map (·.1)).Pairwise (· < ·)) {c : QuoteColumns} :
    m.lookup id = some c ↔ (id, c) ∈ m := by
  rw [List.lookup_eq_some_iff]
  constructor
  · rintro ⟨before, after, rfl, _⟩
    simp
  · intro hmem
    obtain ⟨before, after, rfl⟩ := List.append_of_mem hmem
    refine ⟨before, after, rfl, fun y hy => ?_⟩
    rw [List.map_append, List.pairwise_append] at hm
    have hlt := hm.2.2 y.1 (List.mem_map.mpr ⟨y, hy, rfl⟩) id (by simp)
    simpa using ne_of_gt hlt

end

end MemorySessionData

/-! ## The sort -/

theorem Event.before_iff {a b : Event} : a.before b = true ↔ a.Earlier b := by
  unfold Event.before Event.Earlier
  by_cases hts : a.ts = b.ts
  · by_cases hinst : a.instrument = b.instrument
    · simp [hts, hinst]
    · simp [hts, hinst]
  · simp [hts]

theorem Event.Earlier.asymm {a b : Event} (h : a.Earlier b) : ¬ b.Earlier a := by
  unfold Event.Earlier at h ⊢
  lia

theorem Event.earlier_of_not {a b : Event} (h : ¬ b.Earlier a) (hne : a ≠ b) : a.Earlier b := by
  obtain ⟨ts, inst, row⟩ := a
  obtain ⟨ts', inst', row'⟩ := b
  unfold Event.Earlier at h ⊢
  simp only [ne_eq, Event.mk.injEq] at hne h ⊢
  lia

namespace MemorySessionData

instance : Std.Total (fun a b : Event => (b.before a) = false) where
  total a b := by
    by_cases h : b.before a = true
    · right
      rw [Event.before_iff] at h
      simpa [← Event.before_iff] using h.asymm
    · exact .inl (by simpa using h)

instance : IsTrans Event (fun a b : Event => (b.before a) = false) where
  trans a b c hab hbc := by
    simp only [Bool.eq_false_iff, ne_eq, Event.before_iff] at hab hbc ⊢
    unfold Event.Earlier at *
    lia

/-- The sort of `build_event_order`: the same events, each before the ones that follow it. -/
theorem sort_spec {es : List Event} (h : es.Nodup) :
    (es.insertionSort (fun a b => (b.before a) = false)).Perm es ∧
      (es.insertionSort (fun a b => (b.before a) = false)).Pairwise Event.Earlier := by
  have hperm := List.perm_insertionSort (fun a b : Event => (b.before a) = false) es
  refine ⟨hperm, ?_⟩
  have hsorted := List.pairwise_insertionSort (fun a b : Event => (b.before a) = false) es
  have hnodup : (es.insertionSort (fun a b => (b.before a) = false)).Nodup := hperm.nodup_iff.mpr h
  refine (hsorted.and hnodup).imp (fun {a b} hab => Event.earlier_of_not ?_ hab.2)
  rw [← Event.before_iff]
  simpa using hab.1

/-- The times collected so far, and those of the events still to come. -/
theorem foldl_pushTime {es : List Event} {out : List Timestamp} (hasc : es.Pairwise (fun a b => a.ts ≤ b.ts))
    (hout : out.Pairwise (· < ·)) (hle : ∀ t ∈ out, ∀ e ∈ es, t ≤ e.ts) :
    (es.foldl pushTime out).Pairwise (· < ·) ∧
      ∀ t, t ∈ es.foldl pushTime out ↔ t ∈ out ∨ ∃ e ∈ es, e.ts = t := by
  induction es generalizing out with
  | nil => simp [hout]
  | cons e es ih =>
      obtain ⟨he, hasc⟩ := List.pairwise_cons.mp hasc
      have hrest : ∀ t ∈ out, ∀ e' ∈ es, t ≤ e'.ts := fun t ht e' he' =>
        hle t ht e' (List.mem_cons_of_mem _ he')
      rw [List.foldl_cons]
      unfold pushTime
      by_cases hlast : out.getLast? = some e.ts
      · have hmem : e.ts ∈ out := List.mem_of_getLast? hlast
        obtain ⟨hpair, hiff⟩ := ih hasc hout hrest
        rw [if_pos hlast]
        refine ⟨hpair, fun t => (hiff t).trans ?_⟩
        rw [List.exists_mem_cons_iff]
        constructor
        · exact fun h => h.imp id .inr
        · rintro (h | rfl | h)
          · exact .inl h
          · exact .inl hmem
          · exact .inr h
      · have hnew : ∀ t ∈ out, t < e.ts := by
          intro t ht
          refine lt_of_le_of_ne (hle t ht e (List.mem_cons_self ..)) ?_
          rintro rfl
          -- a time that is there and not later than the last one is the last one
          obtain ⟨front, hfront⟩ : ∃ front, out = front ++ [e.ts] := by
            cases hl : out.getLast? with
            | none => simp [List.getLast?_eq_none_iff.mp hl] at ht
            | some l =>
                obtain ⟨front, rfl⟩ := List.getLast?_eq_some_iff.mp hl
                obtain ht | ht := List.mem_append.mp ht
                · have hlt := (List.pairwise_append.mp hout).2.2 _ ht l (by simp)
                  have hge := hle l (by simp) e (List.mem_cons_self ..)
                  exact absurd hlt (not_lt.mpr hge)
                · exact ⟨front, by rw [List.mem_singleton.mp ht]⟩
          exact hlast (by rw [hfront, List.getLast?_concat])
        rw [if_neg hlast]
        have hout' : (out ++ [e.ts]).Pairwise (· < ·) := by
          rw [List.pairwise_append]
          exact ⟨hout, by simp, fun a ha b hb => by rw [List.mem_singleton.mp hb]; exact hnew a ha⟩
        have hle' : ∀ t ∈ out ++ [e.ts], ∀ e' ∈ es, t ≤ e'.ts := by
          intro t ht e' he'
          obtain ht | ht := List.mem_append.mp ht
          · exact hrest t ht e' he'
          · rw [List.mem_singleton.mp ht]
            exact he e' he'
        obtain ⟨hpair, hiff⟩ := ih hasc hout' hle'
        refine ⟨hpair, fun t => (hiff t).trans ?_⟩
        rw [List.exists_mem_cons_iff, List.mem_append, List.mem_singleton, or_assoc, @eq_comm _ t]

/-! ## Sessions in memory -/

/-- The columns of one instrument, as `append` leaves them. -/
structure Kept (c : QuoteColumns) : Prop where
  nonempty : c.ts ≠ []
  aligned : c.Aligned
  ascending : c.Ascending

/-- The order that is cached, if there is one, is the sorted list of all rows, and the timeline its distinct
    times. -/
def Cached (s : MemorySessionData) : Prop :=
  (s.order = [] ∧ s.timeline = []) ∨
    (s.order = (s.series.flatMap rowEvents).insertionSort (fun a b => (b.before a) = false) ∧
      s.timeline = s.order.foldl pushTime [])

/-- What every operation keeps. -/
structure Built (s : MemorySessionData) : Prop where
  keys : (s.series.map (·.1)).Pairwise (· < ·)
  instruments : s.instruments.Perm (s.series.map (·.1))
  kept : ∀ x ∈ s.series, Kept x.2
  total : s.total = (s.series.map (fun x => x.2.size)).sum
  cached : s.Cached

theorem push_aligned {c : QuoteColumns} (h : c.Aligned) (q : Quote) : (c.push q).Aligned := by
  constructor <;> simp [QuoteColumns.push, h.last, h.bid, h.ask, h.bidQty, h.askQty, h.lastQty, h.openInterest]

/-- An observation that is not refused keeps the columns in order. -/
theorem push_kept {c : QuoteColumns} {q : Quote} (haligned : c.Aligned) (hasc : c.Ascending)
    (h : ¬ c.ts.getLast?.any (fun back => Int64.ofInt q.ts < back) = true) : Kept (c.push q) where
  nonempty := by simp [QuoteColumns.push]
  aligned := push_aligned haligned q
  ascending := by
    show (c.ts ++ [Int64.ofInt q.ts]).Pairwise (fun a b => a.toInt ≤ b.toInt)
    rw [List.pairwise_append]
    refine ⟨hasc, by simp, fun a ha b hb => ?_⟩
    rw [List.mem_singleton.mp hb]
    cases hl : c.ts.getLast? with
    | none => simp [List.getLast?_eq_none_iff.mp hl] at ha
    | some back =>
        rw [hl] at h
        have hback : back.toInt ≤ (Int64.ofInt q.ts).toInt := by
          have hnot : ¬ Int64.ofInt q.ts < back := by simpa using h
          rw [Int64.not_lt] at hnot
          exact Int64.le_iff_toInt_le.mp hnot
        obtain ⟨front, hfront⟩ := List.getLast?_eq_some_iff.mp hl
        have hall : c.ts.Pairwise (fun a b => a.toInt ≤ b.toInt) := hasc
        rw [hfront, List.pairwise_append] at hall
        rw [hfront] at ha
        obtain ha | ha := List.mem_append.mp ha
        · exact le_trans (hall.2.2 a ha back (by simp)) hback
        · rw [List.mem_singleton.mp ha]
          exact hback

theorem new_built (date : Date) (registry : InstrumentRegistry) :
    Built { date := date, registry := registry } where
  keys := .nil
  instruments := .nil
  kept := by simp
  total := rfl
  cached := .inl ⟨rfl, rfl⟩

theorem Built.append {s s' : MemorySessionData} (h : s.Built) {id : InstrumentId} {q : Quote}
    (happend : s.append id q = .ok s') : s'.Built := by
  unfold MemorySessionData.append at happend
  obtain ⟨hordered, happend⟩ := Run.guard_eq_ok.mp happend
  cases happend
  obtain ⟨hnone, hperm⟩ | ⟨before, c, after, hsplit, hsome, heq⟩ :=
    modifySeries_cases id (·.push q) h.keys
  · -- the first observation of its instrument
    have hpush : Kept (QuoteColumns.push {} q) :=
      push_kept (by constructor <;> rfl) .nil (by simp)
    exact {
      keys := modifySeries_keys h.keys
      instruments := by
        have hkeys := hperm.map (·.1)
        rw [List.map_cons] at hkeys
        simp only [hnone, Option.isSome_none, Bool.false_eq_true, if_false]
        exact ((h.instruments.append_right [id]).trans (List.perm_append_singleton ..)).trans hkeys.symm
      kept := by
        intro x hx
        obtain rfl | hx := List.mem_cons.mp (hperm.mem_iff.mp hx)
        · exact hpush
        · exact h.kept x hx
      total := by
        have hsum := (hperm.map (fun x => x.2.size)).sum_eq
        rw [List.map_cons, List.sum_cons] at hsum
        show s.total + 1 = _
        rw [hsum, h.total, Nat.add_comm]
        rfl
      cached := .inl ⟨rfl, rfl⟩ }
  · -- one more of an instrument that has some
    have hc : Kept c := h.kept (id, c) (by rw [hsplit]; simp)
    rw [hsome] at hordered
    have hpush : Kept (c.push q) := push_kept hc.aligned hc.ascending hordered
    exact {
      keys := modifySeries_keys h.keys
      instruments := by
        simp only [hsome, Option.isSome_some, if_true]
        rw [heq, List.map_append, List.map_cons]
        have hkeys := h.instruments
        rw [hsplit, List.map_append, List.map_cons] at hkeys
        exact hkeys
      kept := by
        intro x hx
        dsimp only at hx
        rw [heq] at hx
        obtain hx | hx := List.mem_append.mp hx
        · exact h.kept x (by rw [hsplit]; exact List.mem_append_left _ hx)
        · obtain rfl | hx := List.mem_cons.mp hx
          · exact hpush
          · exact h.kept x (by rw [hsplit]; exact List.mem_append_right _ (List.mem_cons_of_mem _ hx))
      total := by
        show s.total + 1 = _
        rw [heq, h.total, hsplit]
        simp only [List.map_append, List.map_cons, List.sum_append, List.sum_cons, QuoteColumns.size,
          QuoteColumns.push, List.length_append, List.length_singleton]
        omega
      cached := .inl ⟨rfl, rfl⟩ }

theorem Built.buildEventOrder {s : MemorySessionData} (h : s.Built) : s.buildEventOrder.Built where
  keys := h.keys
  instruments := h.instruments
  kept := h.kept
  total := h.total
  cached := .inr ⟨rfl, rfl⟩

/-- **Every session built in memory** keeps its columns in order and its cache up to date. -/
theorem built_of_reach {date : Date} {registry : InstrumentRegistry} {s : MemorySessionData}
    (h : Run.Reach apply { date := date, registry := registry } s) : s.Built := by
  refine h.inv Built (new_built date registry) (fun s op s' hs hstep => ?_)
  cases op with
  | append id q => exact hs.append hstep
  | buildEventOrder =>
      cases hstep
      exact hs.buildEventOrder

theorem Built.quotes_of_mem {s : MemorySessionData} (h : s.Built) {id : InstrumentId} {c : QuoteColumns}
    (hx : (id, c) ∈ s.series) : s.quotes id = c := by
  unfold MemorySessionData.quotes
  rw [(lookup_eq_some h.keys).mpr hx]
  rfl

theorem Built.mem_instruments {s : MemorySessionData} (h : s.Built) {id : InstrumentId} :
    id ∈ s.instruments ↔ (id, s.quotes id) ∈ s.series := by
  rw [h.instruments.mem_iff, List.mem_map]
  constructor
  · rintro ⟨⟨id, c⟩, hx, rfl⟩
    rw [h.quotes_of_mem hx]
    exact hx
  · exact fun hx => ⟨_, hx, rfl⟩

theorem Built.quotes_of_not_mem {s : MemorySessionData} (h : s.Built) {id : InstrumentId}
    (hid : id ∉ s.instruments) : s.quotes id = {} := by
  have hnone : s.series.lookup id = none := by
    cases hl : s.series.lookup id with
    | none => rfl
    | some c =>
        have hmem := (lookup_eq_some h.keys).mp hl
        rw [← h.quotes_of_mem hmem] at hmem
        exact absurd (h.mem_instruments.mpr hmem) hid
  unfold MemorySessionData.quotes
  rw [hnone]
  rfl

/-- What an instrument answers is kept columns, or nothing. -/
theorem Built.quotes_cases {s : MemorySessionData} (h : s.Built) (id : InstrumentId) :
    Kept (s.quotes id) ∨ s.quotes id = {} := by
  by_cases hid : id ∈ s.instruments
  · exact .inl (h.kept _ (h.mem_instruments.mp hid))
  · exact .inr (h.quotes_of_not_mem hid)

variable {s : MemorySessionData}

theorem Built.mem_rowEvents (h : s.Built) (hrows : ∀ id, (s.quotes id).size < 2 ^ 32) {e : Event} :
    e ∈ s.series.flatMap rowEvents ↔ s.session.Locates e := by
  rw [List.mem_flatMap]
  constructor
  · rintro ⟨⟨id, c⟩, hx, he⟩
    obtain ⟨i, hi, rfl⟩ := List.mem_map.mp he
    have hc := h.quotes_of_mem hx
    have hi : i < c.size := List.mem_range.mp hi
    have hmod : i % 2 ^ 32 = i := by
      have hlt := hrows id
      rw [hc] at hlt
      exact Nat.mod_eq_of_lt (lt_trans hi hlt)
    rw [hmod]
    refine ⟨?_, ?_, ?_⟩
    · show id ∈ s.instruments
      rw [h.mem_instruments, hc]
      exact hx
    · show i < (s.quotes id).size
      rw [hc]
      exact hi
    · show c.time i = (s.quotes id).time i
      rw [hc]
  · rintro ⟨hid, hrow, hts⟩
    refine ⟨_, h.mem_instruments.mp hid, List.mem_map.mpr ⟨e.row, List.mem_range.mpr hrow, ?_⟩⟩
    have hmod : e.row % 2 ^ 32 = e.row := Nat.mod_eq_of_lt (lt_trans hrow (hrows e.instrument))
    have hts : e.ts = (s.quotes e.instrument).time e.row := hts
    rw [hmod, ← hts]

theorem Built.rowEvents_nodup (h : s.Built) (hrows : ∀ id, (s.quotes id).size < 2 ^ 32) :
    (s.series.flatMap rowEvents).Nodup := by
  rw [List.nodup_flatMap]
  constructor
  · rintro ⟨id, c⟩ hx
    have hsize := hrows id
    rw [h.quotes_of_mem hx] at hsize
    refine List.Nodup.map_on ?_ List.nodup_range
    intro i hi j hj heq
    have hi : i < c.size := List.mem_range.mp hi
    have hj : j < c.size := List.mem_range.mp hj
    have hrow : i % 2 ^ 32 = j % 2 ^ 32 := congrArg Event.row heq
    rwa [Nat.mod_eq_of_lt (lt_trans hi hsize), Nat.mod_eq_of_lt (lt_trans hj hsize)] at hrow
  · refine (List.pairwise_map.mp h.keys).imp (fun {x y} hlt => ?_)
    intro e hx hy
    obtain ⟨i, _, rfl⟩ := List.mem_map.mp hx
    obtain ⟨j, _, heq⟩ := List.mem_map.mp hy
    have hkey : y.1 = x.1 := congrArg Event.instrument heq
    rw [hkey] at hlt
    exact lt_irrefl _ hlt

/-- The sorted rows: each row once, by time, instrument and row. -/
theorem Built.sorted (h : s.Built) (hrows : ∀ id, (s.quotes id).size < 2 ^ 32) :
    ((s.series.flatMap rowEvents).insertionSort (fun a b => (b.before a) = false)).Pairwise Event.Earlier ∧
      ∀ e, e ∈ (s.series.flatMap rowEvents).insertionSort (fun a b => (b.before a) = false) ↔
        s.session.Locates e := by
  obtain ⟨hperm, hpair⟩ := sort_spec (h.rowEvents_nodup hrows)
  exact ⟨hpair, fun e => hperm.mem_iff.trans (h.mem_rowEvents hrows)⟩

/-- The cached order, when there is one. -/
theorem Built.order (h : s.Built) (hrows : ∀ id, (s.quotes id).size < 2 ^ 32) :
    s.order = [] ∨ (s.order.Pairwise Event.Earlier ∧ ∀ e, e ∈ s.order ↔ s.session.Locates e) := by
  obtain ⟨hnone, _⟩ | ⟨horder, _⟩ := h.cached
  · exact .inl hnone
  · rw [horder]
    exact .inr (h.sorted hrows)

theorem Built.timeline (h : s.Built) (hrows : ∀ id, (s.quotes id).size < 2 ^ 32) :
    s.timeline = [] ∨ s.session.IsTimeline s.timeline := by
  obtain ⟨_, hnone⟩ | ⟨horder, htimes⟩ := h.cached
  · exact .inl hnone
  · obtain ⟨hpair, hmem⟩ := h.sorted hrows
    rw [← horder] at hpair hmem
    have hasc : s.order.Pairwise (fun a b => a.ts ≤ b.ts) := hpair.imp (fun {a b} hab => by
      unfold Event.Earlier at hab
      lia)
    obtain ⟨hstrict, htimeline⟩ := foldl_pushTime hasc .nil (by simp)
    rw [htimes]
    refine .inr ⟨hstrict, fun t => (htimeline t).trans ?_⟩
    constructor
    · rintro (ht | ⟨e, he, rfl⟩)
      · cases ht
      · obtain ⟨hid, hrow, hts⟩ := (hmem e).mp he
        exact ⟨e.instrument, hid, e.row, hrow, hts.symm⟩
    · rintro ⟨id, hid, i, hi, rfl⟩
      exact .inr ⟨{ ts := (s.quotes id).time i, instrument := id, row := i }, (hmem _).mpr ⟨hid, hi, rfl⟩, rfl⟩

/-- **A session in memory keeps the contract** of its accessors. -/
theorem Built.contract (h : s.Built) (hrows : ∀ id, (s.quotes id).size < 2 ^ 32) : s.session.Contract where
  nodup := h.instruments.nodup_iff.mpr (h.keys.imp ne_of_lt)
  listed id hid := by
    show (s.quotes id).ts = []
    rw [h.quotes_of_not_mem hid]
  aligned id := by
    show (s.quotes id).Aligned
    obtain hkept | hnone := h.quotes_cases id
    · exact hkept.aligned
    · rw [hnone]
      constructor <;> rfl
  ascending id := by
    show (s.quotes id).Ascending
    obtain hkept | hnone := h.quotes_cases id
    · exact hkept.ascending
    · rw [hnone]
      exact .nil
  located := hrows
  total := by
    show s.total = (s.instruments.map (fun id => (s.quotes id).size)).sum
    rw [h.total, (h.instruments.map (fun id => (s.quotes id).size)).sum_eq, List.map_map]
    congr 1
    refine List.map_congr_left (fun x hx => ?_)
    show x.2.size = (s.quotes x.1).size
    rw [h.quotes_of_mem hx]
  eventOrder := (h.order hrows).imp id (fun ⟨hpair, hmem⟩ => ⟨hpair.imp (fun {a b} hab => by
    unfold Event.Earlier at hab
    lia), hmem⟩)
  timeline := h.timeline hrows
  printedBy _ _ := rfl

end MemorySessionData

/-! ## The cursor -/

/-- The session with its cached order left out. -/
def SessionData.uncached (s : SessionData) : SessionData := { s with eventOrder := [] }

theorem SessionData.Contract.uncached {s : SessionData} (h : s.Contract) : s.uncached.Contract :=
  { h with
    eventOrder := .inl rfl
    timeline := h.timeline.imp id (fun ht => ⟨ht.ascending, ht.mem_iff⟩) }

/-- What a fresh cursor yields when it is asked `n` times more often than it has events at most. -/
def SessionData.walk (s : SessionData) (n : Nat) : List Event :=
  EventCursor.drain s (s.eventBound + n) (EventCursor.new s)

open MemorySessionData in
/-- **Merged and cached order agree.** However a session in memory was built, as long as each row fits the
    32-bit field of an event: a cursor yields the same sequence with the cache and without it, namely every row
    once, by time, instrument and row, and the timeline, unless it is empty, is that of the sequence. -/
theorem merged_and_cached_orders_agree {date : Date} {registry : InstrumentRegistry} {s : MemorySessionData}
    (h : Run.Reach MemorySessionData.apply { date := date, registry := registry } s)
    (hrows : ∀ id, (s.quotes id).size < 2 ^ 32) (n : Nat) :
    s.session.walk n = s.session.uncached.walk n ∧
    (s.session.walk n).Pairwise Event.Earlier ∧ (∀ e, e ∈ s.session.walk n ↔ s.session.Locates e) ∧
    (s.session.eventOrder = [] ∨ s.session.eventOrder = s.session.walk n) ∧
    (s.session.timeline = [] ∨ (s.session.timeline.Pairwise (· < ·) ∧
      ∀ t, t ∈ s.session.timeline ↔ ∃ e ∈ s.session.walk n, e.ts = t)) := by
  have hbuilt := built_of_reach h
  have hc := hbuilt.contract hrows
  -- both walks are in order and complete, and so they are the same
  have hmerged : (s.session.uncached.walk n).Pairwise Event.Earlier ∧
      ∀ e, e ∈ s.session.uncached.walk n ↔ s.session.Locates e := by
    refine SessionData.merge_spec hc.uncached ?_
    unfold SessionData.eventBound
    omega
  have hwalk : (s.session.walk n).Pairwise Event.Earlier ∧ (∀ e, e ∈ s.session.walk n ↔ s.session.Locates e) ∧
      (s.session.eventOrder = [] ∨ s.session.eventOrder = s.session.walk n) := by
    by_cases hcached : s.order = []
    · have huncached : s.session.uncached = s.session := by
        unfold SessionData.uncached MemorySessionData.session
        rw [hcached]
      rw [huncached] at hmerged
      exact ⟨hmerged.1, hmerged.2, .inl hcached⟩
    · have hne : (!s.session.eventOrder.isEmpty) = true := by simpa [MemorySessionData.session] using hcached
      have hall : s.order.length ≤ s.session.eventBound + n :=
        le_trans (Nat.le_add_right ..) (Nat.le_add_right ..)
      have hwhole : s.session.walk n = s.order := by
        unfold SessionData.walk EventCursor.new
        rw [if_pos hne]
        show EventCursor.drain s.session (s.session.eventBound + n) ⟨s.order, 0, []⟩ = s.order
        rw [EventCursor.drain_order hcached, List.drop_zero, List.take_of_length_le hall]
      rw [hwhole]
      obtain ⟨hpair, hmem⟩ := (hbuilt.order hrows).resolve_left hcached
      exact ⟨hpair, hmem, .inr rfl⟩
  obtain ⟨hpair, hmem, horder⟩ := hwalk
  refine ⟨?_, hpair, hmem, horder, (hbuilt.timeline hrows).imp id (fun ht => ⟨ht.ascending, fun t => ?_⟩)⟩
  · exact Sorted.eq_of_mem_iff_of_asymm (fun _ _ hab => hab.asymm) hpair hmerged.1
      (fun e => (hmem e).trans (hmerged.2 e).symm)
  · refine (ht.mem_iff t).trans ?_
    constructor
    · rintro ⟨id, hid, i, hi, rfl⟩
      exact ⟨{ ts := (s.quotes id).time i, instrument := id, row := i }, (hmem _).mpr ⟨hid, hi, rfl⟩, rfl⟩
    · rintro ⟨e, he, rfl⟩
      obtain ⟨hid, hrow, hts⟩ := (hmem e).mp he
      exact ⟨e.instrument, hid, e.row, hrow, hts.symm⟩

/-! ### Rows past the width of an event's field -/

/-- A session of two instruments that print at the same times, and its order built in between. -/
def tiedOps : List MemorySessionData.Op :=
  let q : Quote := { ts := 5, last := 100, bid := 99, ask := 101 }
  [.append 1 q, .buildEventOrder, .append 0 q, .append 1 q, .append 0 { q with ts := 7 }, .buildEventOrder]

def emptySession : MemorySessionData where
  date := ⟨20250701⟩
  registry := {}

theorem merged_and_cached_orders_agree_tied :
    ∃ s, tiedOps.foldlM MemorySessionData.apply emptySession = .ok s ∧ s.session.eventOrder.length = 4 ∧
      s.session.walk 0 = s.session.uncached.walk 0 := by
  obtain ⟨s, hrun, htest⟩ := Run.exists_of_succeeds
    (fun s => s.order.length = 4 ∧ s.series.length = 2 ∧ s.series.all (fun x => x.2.size = 2))
    (tiedOps.foldlM MemorySessionData.apply emptySession) (by decide +kernel)
  obtain ⟨hlen, _, hsizes⟩ := of_decide_eq_true htest
  have hreach : Run.Reach MemorySessionData.apply emptySession s := .of_run .init hrun
  refine ⟨s, hrun, hlen, (merged_and_cached_orders_agree hreach (fun id => ?_) 0).1⟩
  have hbuilt := MemorySessionData.built_of_reach hreach
  by_cases hid : id ∈ s.instruments
  · have hsize := List.all_eq_true.mp hsizes _ (hbuilt.mem_instruments.mp hid)
    have hsize : (s.quotes id).size = 2 := of_decide_eq_true hsize
    rw [hsize]
    decide
  · rw [hbuilt.quotes_of_not_mem hid]
    decide

/-- The columns of an instrument that has printed `n` times at time 5. -/
def repeatedColumns (n : Nat) : QuoteColumns where
  ts := List.replicate n 5
  last := List.replicate n 100
  bid := List.replicate n 99
  ask := List.replicate n 101
  bidQty := List.replicate n 0
  askQty := List.replicate n 0
  lastQty := List.replicate n 0
  openInterest := List.replicate n 0

def repeated (n : Nat) : MemorySessionData :=
  { emptySession with series := [(0, repeatedColumns n)], instruments := [0], total := n }

theorem repeatedColumns_push (n : Nat) :
    (repeatedColumns n).push { ts := 5, last := 100, bid := 99, ask := 101 } = repeatedColumns (n + 1) := by
  unfold QuoteColumns.push repeatedColumns
  simp only [List.replicate_succ']
  rfl

theorem repeated_reached (n : Nat) : Run.Reach MemorySessionData.apply emptySession (repeated (n + 1)) := by
  induction n with
  | zero => exact .step (e := .append 0 { ts := 5, last := 100, bid := 99, ask := 101 }) .init rfl
  | succ n ih =>
      refine ih.step (e := .append 0 { ts := 5, last := 100, bid := 99, ask := 101 }) ?_
      have hlast : ((repeatedColumns (n + 1)).ts.getLast?.any (fun back => Int64.ofInt 5 < back)) = false := by
        unfold repeatedColumns
        rw [List.getLast?_replicate, if_neg (Nat.succ_ne_zero n)]
        decide
      show MemorySessionData.append (repeated (n + 1)) 0 _ = .ok (repeated (n + 2))
      unfold MemorySessionData.append
      show (if ((repeatedColumns (n + 1)).ts.getLast?.any (fun back => Int64.ofInt 5 < back)) = true then _
        else _) = _
      rw [hlast]
      show Except.ok { repeated (n + 1) with
        series := [(0, (repeatedColumns (n + 1)).push { ts := 5, last := 100, bid := 99, ask := 101 })]
        total := n + 1 + 1 } = _
      rw [repeatedColumns_push]
      rfl

theorem repeatedColumns_size (n : Nat) : (repeatedColumns n).size = n := List.length_replicate

/-- A full run of the field's width says at its head that it is empty: the merge yields one row and stops. -/
theorem repeated_walk {n : Nat} (h : (n + 2) % 2 ^ 32 = 0) :
    (repeated (n + 2)).session.walk 0 = [{ ts := 5, instrument := 0, row := 0 }] := by
  have hbound : (repeated (n + 2)).session.eventBound + 0 = n + 2 := by
    show 0 + ((repeatedColumns (n + 2)).size + 0) + 0 = n + 2
    rw [repeatedColumns_size]
    omega
  have hheads : (repeated (n + 2)).session.instruments.filterMap
      (EventCursor.headRun (repeated (n + 2)).session) = [⟨0, 0, 0, 5⟩] := by
    show [(⟨0, 0, (repeatedColumns (n + 2)).size % 2 ^ 32, 5⟩ : EventCursor.Run)] = _
    rw [repeatedColumns_size, h]
  unfold SessionData.walk EventCursor.new
  rw [hbound]
  show EventCursor.drain _ _ ⟨[], 0, (repeated (n + 2)).session.instruments.filterMap _⟩ = _
  rw [hheads]
  rfl

/-- A session of 2^32 rows: all but the first are left out. -/
theorem merge_stops_after_full_run :
    Run.Reach MemorySessionData.apply emptySession (repeated (2 ^ 32)) ∧
      (repeated (2 ^ 32)).session.Locates { ts := 5, instrument := 0, row := 1 } ∧
      (repeated (2 ^ 32)).session.walk 0 = [{ ts := 5, instrument := 0, row := 0 }] := by
  have hfull : 2 ^ 32 = 4294967294 + 2 := by norm_num
  rw [hfull]
  refine ⟨repeated_reached _, ⟨List.mem_singleton.mpr rfl, ?_, rfl⟩, repeated_walk (by norm_num)⟩
  show 1 < (repeatedColumns (4294967294 + 2)).size
  rw [repeatedColumns_size]
  norm_num

end Volforge
