import Volforge.Core.Correctness.Events
import Volforge.Core.Correctness.Stale

/-!
# `Core.Correctness.Universe` — the expiries a strategy may choose from

A store fills one registry from all of its files before the first session is replayed, and the accessors that
choose an expiry read that registry. Two sources that agree on everything printed so far are compared here:
the market view answers the same, and the expiry accessors answer the same exactly when the contracts of the
later sessions bring no expiry date that the other source does not list.
-/

namespace Volforge

variable {F : Type} [Double F] {σ : Type}

/-! ## Dates in order -/

instance : LinearOrder Date where
  le_refl d := Int32.le_refl d.yyyymmdd
  le_trans _ _ _ h h' := Int32.le_trans h h'
  lt_iff_le_not_ge a b := by
    show a.yyyymmdd < b.yyyymmdd ↔ a.yyyymmdd ≤ b.yyyymmdd ∧ ¬ b.yyyymmdd ≤ a.yyyymmdd
    rw [Int32.not_le]
    exact ⟨fun h => ⟨Int32.le_of_lt h, h⟩, fun h => h.2⟩
  le_antisymm a b h h' := by
    have heq : a.yyyymmdd = b.yyyymmdd := Int32.le_antisymm h h'
    cases a
    cases b
    exact congrArg Date.mk heq
  le_total a b := Int32.le_total a.yyyymmdd b.yyyymmdd
  toDecidableLE a b := inferInstance

namespace InstrumentRegistry

theorem insertDate_ascending {d : Date} {ds : List Date} (h : ds.Pairwise (· < ·)) :
    (insertDate d ds).Pairwise (· < ·) := by
  induction ds with
  | nil => simp [insertDate]
  | cons e es ih =>
      obtain ⟨he, hes⟩ := List.pairwise_cons.mp h
      unfold insertDate
      split_ifs with hlt heq
      · refine List.pairwise_cons.mpr ⟨fun x hx => ?_, h⟩
        obtain rfl | hx := List.mem_cons.mp hx
        · exact hlt
        · exact lt_trans hlt (he x hx)
      · exact h
      · refine List.pairwise_cons.mpr ⟨fun x hx => ?_, ih hes⟩
        obtain rfl | hx := mem_insertDate.mp hx
        · exact lt_of_le_of_ne (not_lt.mp hlt) (Ne.symm heq)
        · exact he x hx

end InstrumentRegistry

/-- The contract is one whose expiry the registry lists for `u`. -/
structure InstrumentSpec.Dated (u : UnderlyingId) (s : InstrumentSpec) : Prop where
  underlying : s.underlying = u
  kind : s.kind ≠ .Spot
  valid : s.expiry.valid = true

namespace InstrumentRegistry

/-- **What is listed**: the expiry dates of the dated contracts, in order. -/
theorem expiries_spec (r : InstrumentRegistry) (u : UnderlyingId) :
    (r.expiries u).Pairwise (· < ·) ∧ ∀ d, d ∈ r.expiries u ↔ ∃ s ∈ r.specs, s.Dated u ∧ s.expiry = d := by
  have hloop := Run.foldl_inv_rest (fun (rest : List InstrumentSpec) (out : List Date) => out.Pairwise (· < ·) ∧
    ∀ d, (d ∈ out ∨ ∃ s ∈ rest, s.Dated u ∧ s.expiry = d) ↔ ∃ s ∈ r.specs, s.Dated u ∧ s.expiry = d)
    r.specs (f := fun out s =>
      if s.underlying ≠ u then out
      else if s.kind = .Spot then out
      else if !s.expiry.valid then out
      else insertDate s.expiry out) ?_ (s := []) ⟨.nil, by simp⟩
  · refine ⟨hloop.1, fun d => ?_⟩
    rw [← hloop.2 d]
    simp [expiries]
  · -- a contract is skipped exactly when it is not dated
    rintro out s rest ⟨hasc, hmem⟩
    have hskip : ¬ s.Dated u → ∀ d, (d ∈ out ∨ ∃ s ∈ rest, s.Dated u ∧ s.expiry = d) ↔
        ∃ s ∈ r.specs, s.Dated u ∧ s.expiry = d := by
      intro hnot d
      rw [← hmem d]
      simp [hnot]
    split_ifs with hother hspot hinvalid
    · exact ⟨hasc, hskip (fun h => hother h.underlying)⟩
    · exact ⟨hasc, hskip (fun h => h.kind hspot)⟩
    · exact ⟨hasc, hskip (fun h => by simp [h.valid] at hinvalid)⟩
    · have hdated : s.Dated u := ⟨not_not.mp hother, hspot, by simpa using hinvalid⟩
      refine ⟨insertDate_ascending hasc, fun d => ?_⟩
      rw [← hmem d, mem_insertDate]
      simp only [List.mem_cons, exists_eq_or_imp, hdated, true_and]
      rw [or_assoc, or_left_comm, @eq_comm _ d]

/-- The registries list the same expiries exactly when they hold dated contracts of the same dates. -/
theorem expiries_eq_iff {r r' : InstrumentRegistry} {u : UnderlyingId} :
    r.expiries u = r'.expiries u ↔
      ∀ d, (∃ s ∈ r.specs, s.Dated u ∧ s.expiry = d) ↔ ∃ s ∈ r'.specs, s.Dated u ∧ s.expiry = d := by
  obtain ⟨hasc, hmem⟩ := r.expiries_spec u
  obtain ⟨hasc', hmem'⟩ := r'.expiries_spec u
  constructor
  · intro heq d
    rw [← hmem, ← hmem', heq]
  · intro h
    refine Sorted.eq_of_mem_iff hasc hasc' (fun d => ?_)
    rw [hmem, hmem']
    exact h d

end InstrumentRegistry

/-! ## Two sources that agree so far -/

/-- The sessions answer the same about everything printed up to `now`. -/
structure SessionData.SameUntil (now : Timestamp) (a b : SessionData) : Prop where
  date : a.date = b.date
  quotes : ∀ id, (a.quotes id).first ((a.quotes id).upperBound now) =
    (b.quotes id).first ((b.quotes id).upperBound now)
  printedBy : ∀ id, ∀ t ≤ now, a.printedBy id t = b.printedBy id t

/-- A session without the registry that its instruments are looked up in. -/
def SessionData.unregistered (s : SessionData) : SessionData := { s with registry := {} }

/-- The sources differ only after the instant `now` of the session of `today`, and in what their registries
    know. -/
structure DataSource.SameUntil (today : Date) (now : Timestamp) (A B : DataSource) : Prop where
  earlier : ∀ d < today, (A.load d).map (·.map (·.unregistered)) = (B.load d).map (·.map (·.unregistered))
  today : ∀ a b, A.load today = .ok (some a) → B.load today = .ok (some b) → a.SameUntil now b

/-- One registry, which holds the contracts `known` so far and `later` from the sessions to come, is shared by
    all sessions of the source. -/
def DataSource.Registers (source : DataSource) (known later : List InstrumentSpec) : Prop :=
  ∃ r : InstrumentRegistry, r.specs = known ++ later ∧ ∀ d s, source.load d = .ok (some s) → s.registry = r

/-- `e` is the engine of a run over `source` in the session of `today`, after the timestamps `upTo`; the dates
    `past` were replayed before it and `rest` are still to come. -/
def Engine.InRun (source : DataSource) (underlying : UnderlyingId) (spot : InstrumentId) (strategy : Strategy F)
    (config : BacktestConfig F) (past : List Date) (today : Date) (rest : List Date) (upTo : List Timestamp)
    (e : Engine F strategy.State) : Prop :=
  let desk := backtestDesk underlying spot config (past ++ today :: rest)
  ∃ c₀ c session, startCampaign desk source strategy ((past ++ [today]).headD today) = .ok c₀ ∧
    replayDates desk config source strategy past c₀ = .ok c ∧ source.load today = .ok (some session) ∧
    c.during desk strategy session today upTo = .ok e

/-- The accessors that choose an expiry answer the same. -/
structure Ctx.SameUniverse (c c' : Ctx F) : Prop where
  expiries : c.expiries = c'.expiries
  chain : (·.expiry) <$> c.chain = (·.expiry) <$> c'.chain
  nextExpiry : ∀ minDaysAhead, c.nextExpiry minDaysAhead = c'.nextExpiry minDaysAhead

/-- Every expiry date that `later` lists for `u` is the date of some contract of `specs`. -/
def NoNewExpiry (u : UnderlyingId) (later specs : List InstrumentSpec) : Prop :=
  ∀ s ∈ later, s.Dated u → ∃ s' ∈ specs, s'.Dated u ∧ s'.expiry = s.expiry

/-- Registries that share the contracts known so far list the same expiries exactly when neither learns a new
    date later. -/
theorem expiries_eq_iff_noNewExpiry {r r' : InstrumentRegistry} {u : UnderlyingId}
    {known later later' : List InstrumentSpec} (hr : r.specs = known ++ later) (hr' : r'.specs = known ++ later') :
    r.expiries u = r'.expiries u ↔
      NoNewExpiry u later (known ++ later') ∧ NoNewExpiry u later' (known ++ later) := by
  rw [InstrumentRegistry.expiries_eq_iff, hr, hr']
  constructor
  · intro h
    refine ⟨fun s hs hdated => ?_, fun s hs hdated => ?_⟩
    · exact (h s.expiry).mp ⟨s, List.mem_append_right known hs, hdated, rfl⟩
    · exact (h s.expiry).mpr ⟨s, List.mem_append_right known hs, hdated, rfl⟩
  · rintro ⟨hnew, hnew'⟩ d
    constructor
    · rintro ⟨s, hs, hdated, rfl⟩
      obtain hs | hs := List.mem_append.mp hs
      · exact ⟨s, List.mem_append_left later' hs, hdated, rfl⟩
      · exact hnew s hs hdated
    · rintro ⟨s, hs, hdated, rfl⟩
      obtain hs | hs := List.mem_append.mp hs
      · exact ⟨s, List.mem_append_left later hs, hdated, rfl⟩
      · exact hnew' s hs hdated

omit [Double F] in
/-- The accessors look at nothing but the list of expiries and the date. -/
theorem Ctx.sameUniverse_iff {c c' : Ctx F} (hdate : c.date = c'.date) :
    c.SameUniverse c' ↔ c.expiries = c'.expiries := by
  refine ⟨fun h => h.expiries, fun h => ⟨h, ?_, fun minDaysAhead => ?_⟩⟩
  · have hchosen : ∀ c : Ctx F, (·.expiry) <$> c.chain =
        (c.expiries.find? (fun d => c.date ≤ d)).elim
          (c.expiries.getLast?.elim (.error (.runtimeError "Ctx::chain: no expiries for underlying")) .ok) .ok := by
      intro c
      unfold Ctx.chain
      cases c.expiries.find? (fun d => c.date ≤ d) with
      | some d => rfl
      | none => cases c.expiries.getLast? <;> rfl
    rw [hchosen c, hchosen c', h, hdate]
  · unfold Ctx.nextExpiry
    rw [h, hdate]

/-- A session's views at `now` agree when its observations up to `now` do. -/
theorem SessionData.SameUntil.view {now : Timestamp} {a b : SessionData} (h : a.SameUntil now b) :
    (a.view now).quote = (b.view now).quote ∧ (a.view now).hasQuote = (b.view now).hasQuote := by
  refine ⟨funext fun id => funext fun back => ?_, funext fun id => h.printedBy id now (le_refl now)⟩
  show (a.quotes id).quoteAt now back = (b.quotes id).quoteAt now back
  rw [← quoteAt_first _ (le_refl now), h.quotes id, quoteAt_first _ (le_refl now)]

/-- The steps of a session leave it bound. -/
theorem Campaign.during_cases {desk : Desk F} {strategy : Strategy F} {c : Campaign F strategy.State}
    {session : SessionData} {date : Date} {upTo : List Timestamp} {e : Engine F strategy.State}
    (h : c.during desk strategy session date upTo = .ok e) : e.session = session ∧ e.date = date :=
  Run.foldlM_inv (fun e : Engine F strategy.State => e.session = session ∧ e.date = date)
    (fun _ _ _ hbound hstep => ⟨(Engine.step_cases hstep).session.trans hbound.1,
      (Engine.step_cases hstep).date.trans hbound.2⟩) upTo _ _ ⟨rfl, rfl⟩ h

/-- **The expiry universe is as of the decision exactly when no later contract brings a new date.** Two runs over
    sources that agree on everything printed up to `now`, and whose registries agree on the contracts known so
    far: the market view answers the same, and `expiries`, `chain` and `next_expiry` do exactly when each expiry
    date that later sessions of one source add is listed by the other source too. -/
theorem universe_as_of_iff_no_new_expiry {A B : DataSource} {known laterA laterB : List InstrumentSpec}
    (hA : A.Registers known laterA) (hB : B.Registers known laterB) {today : Date} {now : Timestamp}
    (hsame : A.SameUntil today now B) {underlying : UnderlyingId} {spot : InstrumentId} {strategy : Strategy F}
    {config : BacktestConfig F} {past restA restB : List Date} {upToA upToB : List Timestamp}
    {e e' : Engine F strategy.State}
    (hrun : e.InRun A underlying spot strategy config past today restA upToA) (hnow : e.clock = now)
    (hrun' : e'.InRun B underlying spot strategy config past today restB upToB) (hnow' : e'.clock = now) :
    (e.market.quote = e'.market.quote ∧ e.market.hasQuote = e'.market.hasQuote) ∧
    ((e.ctx (backtestDesk underlying spot config (past ++ today :: restA))).SameUniverse
        (e'.ctx (backtestDesk underlying spot config (past ++ today :: restB))) ↔
      NoNewExpiry underlying laterA (known ++ laterB) ∧ NoNewExpiry underlying laterB (known ++ laterA)) := by
  obtain ⟨_, c, a, _, _, ha, hduring⟩ := hrun
  obtain ⟨_, c', b, _, _, hb, hduring'⟩ := hrun'
  obtain ⟨hsession, hdate⟩ := Campaign.during_cases hduring
  obtain ⟨hsession', hdate'⟩ := Campaign.during_cases hduring'
  obtain ⟨r, hspecs, hshared⟩ := hA
  obtain ⟨r', hspecs', hshared'⟩ := hB
  constructor
  · show (e.session.view e.clock).quote = (e'.session.view e'.clock).quote ∧
      (e.session.view e.clock).hasQuote = (e'.session.view e'.clock).hasQuote
    rw [hsession, hsession', hnow, hnow']
    exact (hsame.today a b ha hb).view
  · rw [Ctx.sameUniverse_iff (hdate.trans hdate'.symm), ← expiries_eq_iff_noNewExpiry hspecs hspecs']
    have hregistry : e.session.registry = r := by rw [hsession, hshared today a ha]
    have hregistry' : e'.session.registry = r' := by rw [hsession', hshared' today b hb]
    show e.session.registry.expiries underlying = e'.session.registry.expiries underlying ↔ _
    rw [hregistry, hregistry']

/-! ### A contract listed tomorrow -/

/-- The registry of a store whose only file so far lists one option. -/
def listedToday : InstrumentRegistry :=
  ((({} : InstrumentRegistry).internUnderlying [78]).1.add
    { underlying := 0, kind := .Option, expiry := ⟨20250710⟩, strike := 10000 }).1

/-- The same store with a file of tomorrow, which lists an option of the given expiry. -/
def listedTomorrow (expiry : Date) : InstrumentRegistry :=
  (listedToday.add { underlying := 0, kind := .Option, expiry := expiry, strike := 10100 }).1

/-- Both stores hold the same session of today. -/
def listingSource (r : InstrumentRegistry) : DataSource where
  sessions := [⟨20250701⟩]
  load d := .ok (if d = ⟨20250701⟩ then
    some { flatSession ⟨20250701⟩ [1751341500000000000] with registry := r } else none)

/-- Does nothing. -/
def idle : Strategy ℚ where
  State := Unit
  start := .finish
  resume _ := .finish

theorem listingSource_same (r r' : InstrumentRegistry) (now : Timestamp) :
    (listingSource r).SameUntil ⟨20250701⟩ now (listingSource r') where
  earlier d hd := by
    have hne : d ≠ ⟨20250701⟩ := ne_of_lt hd
    simp [listingSource, hne]
  today a b ha hb := by
    cases ha
    cases hb
    exact ⟨rfl, fun _ => rfl, fun _ _ _ => rfl⟩

theorem listingSource_registers {r : InstrumentRegistry} {known later : List InstrumentSpec}
    (h : r.specs = known ++ later) : (listingSource r).Registers known later := by
  refine ⟨r, h, fun d s hload => ?_⟩
  unfold listingSource at hload
  dsimp only at hload
  split_ifs at hload
  · cases hload
    rfl
  · cases hload

/-- The run over today's session. -/
def listingRun (r : InstrumentRegistry) : Except Error (Engine ℚ Unit) := do
  let c ← startCampaign undatedDesk (listingSource r) idle ⟨20250701⟩
  c.during undatedDesk idle { flatSession ⟨20250701⟩ [1751341500000000000] with registry := r } ⟨20250701⟩
    [1751341500000000000]

theorem listingRun_inRun {r : InstrumentRegistry} {e : Engine ℚ Unit} (h : listingRun r = .ok e) :
    e.InRun (listingSource r) 0 (-1) idle undatedConfig [] ⟨20250701⟩ [] [1751341500000000000] := by
  obtain ⟨c, hc, h⟩ := Run.bind_eq_ok.mp h
  exact ⟨c, c, _, hc, rfl, rfl, h⟩

/-- A contract first listed tomorrow, with a nearer expiry, is chosen today. -/
theorem tomorrow_expiry_chosen_today :
    ∃ e e', listingRun listedToday = .ok e ∧ listingRun (listedTomorrow ⟨20250703⟩) = .ok e' ∧
      e.clock = 1751341500000000000 ∧ e'.clock = 1751341500000000000 ∧
      (listingSource listedToday).SameUntil ⟨20250701⟩ 1751341500000000000
        (listingSource (listedTomorrow ⟨20250703⟩)) ∧
      ¬ (e.ctx undatedDesk).SameUniverse (e'.ctx undatedDesk) ∧
      (e.ctx undatedDesk).expiries = [⟨20250710⟩] ∧ (e'.ctx undatedDesk).expiries = [⟨20250703⟩, ⟨20250710⟩] ∧
      (e.ctx undatedDesk).nextExpiry 0 = some ⟨20250710⟩ ∧
      (e'.ctx undatedDesk).nextExpiry 0 = some ⟨20250703⟩ ∧
      ((e.ctx undatedDesk).chain).map (·.expiry) = .ok ⟨20250710⟩ ∧
      ((e'.ctx undatedDesk).chain).map (·.expiry) = .ok ⟨20250703⟩ := by
  obtain ⟨e, hrun, htest⟩ := Run.exists_of_succeeds
    (fun e => e.clock = 1751341500000000000 ∧ (e.ctx undatedDesk).expiries = [⟨20250710⟩] ∧
      (e.ctx undatedDesk).nextExpiry 0 = some ⟨20250710⟩ ∧
      ((e.ctx undatedDesk).chain).map (·.expiry) = .ok ⟨20250710⟩) (listingRun listedToday) (by decide +kernel)
  obtain ⟨e', hrun', htest'⟩ := Run.exists_of_succeeds
    (fun e => e.clock = 1751341500000000000 ∧ (e.ctx undatedDesk).expiries = [⟨20250703⟩, ⟨20250710⟩] ∧
      (e.ctx undatedDesk).nextExpiry 0 = some ⟨20250703⟩ ∧
      ((e.ctx undatedDesk).chain).map (·.expiry) = .ok ⟨20250703⟩)
    (listingRun (listedTomorrow ⟨20250703⟩)) (by decide +kernel)
  obtain ⟨hclock, hexpiries, hnext, hchain⟩ := of_decide_eq_true htest
  obtain ⟨hclock', hexpiries', hnext', hchain'⟩ := of_decide_eq_true htest'
  have hdiffer : ¬ (e.ctx undatedDesk).SameUniverse (e'.ctx undatedDesk) := by
    intro hsame
    have heq := hsame.expiries
    rw [hexpiries, hexpiries'] at heq
    exact absurd heq (by decide)
  exact ⟨e, e', hrun, hrun', hclock, hclock', listingSource_same _ _ _, hdiffer, hexpiries, hexpiries', hnext,
    hnext', hchain, hchain'⟩

/-- A contract first listed tomorrow, with an expiry listed today, changes nothing. -/
theorem universe_as_of_iff_no_new_expiry_listed :
    ∃ e e', listingRun listedToday = .ok e ∧ listingRun (listedTomorrow ⟨20250710⟩) = .ok e' ∧
      (e.ctx undatedDesk).SameUniverse (e'.ctx undatedDesk) := by
  obtain ⟨e, hrun, hclock⟩ := Run.exists_of_succeeds (fun e => e.clock = 1751341500000000000)
    (listingRun listedToday) (by decide +kernel)
  obtain ⟨e', hrun', hclock'⟩ := Run.exists_of_succeeds (fun e => e.clock = 1751341500000000000)
    (listingRun (listedTomorrow ⟨20250710⟩)) (by decide +kernel)
  have hA : (listingSource listedToday).Registers listedToday.specs [] := listingSource_registers (by simp)
  have hB : (listingSource (listedTomorrow ⟨20250710⟩)).Registers listedToday.specs
      [{ id := 1, underlying := 0, kind := .Option, expiry := ⟨20250710⟩, strike := 10100 }] :=
    listingSource_registers (by decide)
  obtain ⟨_, hiff⟩ := universe_as_of_iff_no_new_expiry hA hB (listingSource_same _ _ _) (listingRun_inRun hrun)
    (of_decide_eq_true hclock) (listingRun_inRun hrun') (of_decide_eq_true hclock')
  refine ⟨e, e', hrun, hrun', hiff.mpr ⟨fun s hs => absurd hs (by simp), fun s hs hdated => ?_⟩⟩
  rw [List.mem_singleton.mp hs]
  exact ⟨{ id := 0, underlying := 0, kind := .Option, expiry := ⟨20250710⟩, strike := 10000 }, by decide,
    ⟨rfl, by decide, by decide⟩, rfl⟩

end Volforge
