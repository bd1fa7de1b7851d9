import Volforge.Core.Correctness.Universe

/-!
# `Core.Correctness.Settlement` — the level an expired option is settled against

Due expiries, the level and the settling loop know an option by its expiry date only, and the level is that of
the run's underlying. What the end of a session does to one held leg is followed through its loops
(`endSession_leg`); the option is settled against the level of its own underlying exactly when it is on the run's,
or the two levels give it the same value.

## Contents
- **One leg.** `settledOn`, and the loops that apply it.
- **The end of a session.** Which expiries are due, and what becomes of a held leg.
- **Main result.** `settles_at_own_level_iff`, and a book on two underlyings.
-/

namespace Volforge

variable {F : Type} [Double F] {σ : Type}

namespace Portfolio

/-! ## One leg -/

/-- What `settle_expiry` makes of a leg. -/
def settledOn (market : MarketView) (expiry : Date) (level : F) (now : Timestamp) (leg : Leg) : Leg :=
  if leg.live then
    match market.registry.spec leg.instrument with
    | .ok spec => if expiresOn spec expiry then settledLeg spec level now leg else leg
    | .error _ => leg
  else leg

theorem settledOn_of_not_live {market : MarketView} {expiry : Date} {level : F} {now : Timestamp} {leg : Leg}
    (h : leg.live = false) : settledOn market expiry level now leg = leg := by
  simp [settledOn, h]

theorem settledOn_of_live {market : MarketView} {expiry : Date} {level : F} {now : Timestamp} {leg : Leg}
    {spec : InstrumentSpec} (hlive : leg.live = true) (hspec : market.registry.spec leg.instrument = .ok spec) :
    settledOn market expiry level now leg =
      if expiresOn spec expiry then settledLeg spec level now leg else leg := by
  simp [settledOn, hlive, hspec]

theorem settledOn_idem (market : MarketView) (expiry : Date) (level : F) (now : Timestamp) (leg : Leg) :
    settledOn market expiry level now (settledOn market expiry level now leg) =
      settledOn market expiry level now leg := by
  cases hlive : leg.live with
  | false => rw [settledOn_of_not_live hlive, settledOn_of_not_live hlive]
  | true =>
      cases hspec : market.registry.spec leg.instrument with
      | error err =>
          have hsame : settledOn market expiry level now leg = leg := by simp [settledOn, hlive, hspec]
          rw [hsame, hsame]
      | ok spec =>
          rw [settledOn_of_live hlive hspec]
          split_ifs with hexp
          · exact settledOn_of_not_live rfl
          · rw [settledOn_of_live hlive hspec, if_neg hexp]

theorem settledOn_not_pendingOpen {market : MarketView} {expiry : Date} {level : F} {now : Timestamp} {leg : Leg}
    (h : leg.state ≠ .PendingOpen) : (settledOn market expiry level now leg).state ≠ .PendingOpen := by
  unfold settledOn
  split
  · split
    · split_ifs
      · exact nofun
      · exact h
    · exact h
  · exact h

/-- One turn of the first loop settles the leg of its slot. -/
theorem settleIfDue_leg {market : MarketView} {expiry : Date} {level : F} {now : Timestamp} {q q' : Portfolio F}
    {slot : PositionId × Nat} (h : settleIfDue market expiry level now q slot = .ok q') {id : PositionId} {i : Nat}
    {leg : Leg} (hleg : q.leg? id i = some leg) :
    q'.leg? id i = some (if (id, i) = slot then settledOn market expiry level now leg else leg) := by
  obtain ⟨rfl, hnone⟩ | ⟨leg₀, spec, hleg₀, hlive, hspec, hexp, rfl⟩ := settleIfDue_cases h
  · rw [hleg]
    split_ifs with hs
    · subst hs
      cases hlive : leg.live with
      | false => rw [settledOn_of_not_live hlive]
      | true =>
          have hidle := hnone leg hleg hlive
          cases hspec : market.registry.spec leg.instrument with
          | error err => simp [settledOn, hlive, hspec]
          | ok spec =>
              rw [settledOn_of_live hlive hspec, if_neg]
              exact fun hexp => hidle ⟨spec, hspec, hexp⟩
    · rfl
  · rw [leg?_settleLeg]
    by_cases hs : (id, i) = slot
    · subst hs
      rw [if_pos ⟨rfl, rfl⟩, hleg, if_pos rfl]
      rw [hleg, Option.some.injEq] at hleg₀
      subst hleg₀
      rw [settledOn_of_live hlive hspec, if_pos hexp]
      rfl
    · have hne : ¬ (id = slot.1 ∧ i = slot.2) := fun heq => hs (by rw [heq.1, heq.2])
      rw [if_neg hne, if_neg hs, hleg]

/-- The first loop settles every leg. -/
theorem settleLegs_leg {market : MarketView} {expiry : Date} {level : F} {now : Timestamp} {p p' : Portfolio F}
    (h : p.slots.foldlM (settleIfDue market expiry level now) p = .ok p') {id : PositionId} {i : Nat} {leg : Leg}
    (hleg : p.leg? id i = some leg) : p'.leg? id i = some (settledOn market expiry level now leg) := by
  have hloop := Run.foldlM_inv_rest
    (I := fun rest q => (q.leg? id i = some leg ∧ (id, i) ∈ rest) ∨
      q.leg? id i = some (settledOn market expiry level now leg)) ?_ (.inl ⟨hleg, mem_slots hleg⟩) h
  · exact hloop.resolve_left (fun hno => by simp at hno)
  · rintro q slot rest q' hq hstep
    obtain ⟨hq, hmem⟩ | hq := hq
    · have hnext := settleIfDue_leg hstep hq
      by_cases hs : (id, i) = slot
      · rw [if_pos hs] at hnext
        exact .inr hnext
      · rw [if_neg hs] at hnext
        exact .inl ⟨hnext, List.mem_of_ne_of_mem hs hmem⟩
    · have hnext := settleIfDue_leg hstep hq
      rw [settledOn_idem, ite_self] at hnext
      exact .inr hnext

omit [Double F] in
/-- The second loop changes no leg that has opened. -/
theorem dropIfExpired_leg {market : MarketView} {expiry : Date} {q q' : Portfolio F} {o : PendingOrder}
    (h : dropIfExpired market expiry q o = .ok q') {id : PositionId} {i : Nat} {leg : Leg}
    (hleg : q.leg? id i = some leg) (hst : leg.state ≠ .PendingOpen) : q'.leg? id i = some leg := by
  unfold dropIfExpired at h
  obtain ⟨spec, _, h⟩ := Run.bind_eq_ok.mp h
  split at h
  · cases hleg₀ : q.leg? o.position o.legIndex with
    | none =>
        rw [hleg₀] at h
        cases h
        exact hleg
    | some leg₀ =>
        rw [hleg₀] at h
        dsimp only at h
        split at h
        · next hcancel =>
          cases h
          refine (leg?_modifyLeg_of_ne _ ?_).trans hleg
          rintro ⟨rfl, rfl⟩
          rw [hleg, Option.some.injEq] at hleg₀
          subst hleg₀
          exact hst hcancel.2
        · cases h
          exact hleg
  · cases h
    exact hleg

/-- **What a settlement makes of a leg that has opened.** -/
theorem settleExpiry_leg {market : MarketView} {expiry : Date} {level : F} {now : Timestamp} {p p' : Portfolio F}
    {n : Nat} (h : p.settleExpiry market expiry level now = .ok (p', n)) {id : PositionId} {i : Nat} {leg : Leg}
    (hleg : p.leg? id i = some leg) (hst : leg.state ≠ .PendingOpen) :
    p'.leg? id i = some (settledOn market expiry level now leg) := by
  obtain ⟨p₁, hsettle, h⟩ := Run.bind_eq_ok.mp h
  obtain ⟨p₂, hdrop, h⟩ := Run.bind_eq_ok.mp h
  cases h
  exact Run.foldlM_inv (fun q => q.leg? id i = some (settledOn market expiry level now leg))
    (fun _ _ _ hq hstep => dropIfExpired_leg hstep hq (settledOn_not_pendingOpen hst)) _ _ _
    (settleLegs_leg hsettle hleg) hdrop

/-- What the bell makes of a leg that has opened: held if it was, and as it is if it was not. -/
structure Rung (leg leg' : Leg) : Prop where
  opened : leg'.state ≠ .PendingOpen
  live : leg'.live = leg.live
  closed : leg.live = false → leg' = leg

theorem Rung.refl {leg : Leg} (h : leg.state ≠ .PendingOpen) : Rung leg leg := ⟨h, rfl, fun _ => rfl⟩

omit [Double F] in
theorem abandonOrder_rung {q : Portfolio F} {abandoned : List PositionId} (o : PendingOrder) {id : PositionId}
    {i : Nat} {leg : Leg} (hleg : q.leg? id i = some leg) (hst : leg.state ≠ .PendingOpen) :
    ∃ leg', (abandonOrder (q, abandoned) o).1.leg? id i = some leg' ∧ Rung leg leg' := by
  have hset : ∀ st : LegState, (q.setState o.position o.legIndex st).leg? id i = _ :=
    fun st => leg?_setState q o.position o.legIndex st id i
  unfold abandonOrder
  dsimp only
  cases hleg₀ : q.leg? o.position o.legIndex with
  | none => exact ⟨leg, hleg, .refl hst⟩
  | some leg₀ =>
      dsimp only
      by_cases hs : id = o.position ∧ i = o.legIndex
      · -- the order is about this leg
        obtain ⟨rfl, rfl⟩ := hs
        rw [hleg, Option.some.injEq] at hleg₀
        subst hleg₀
        split_ifs with hclosing hexiting
        · refine ⟨{ leg with state := .Open }, ?_, ⟨nofun, ?_, fun hno => ?_⟩⟩
          · exact leg?_modifyLeg_self _ hleg
          · simp [Leg.live, hexiting]
          · simp [Leg.live, hexiting] at hno
        · exact ⟨leg, hleg, .refl hst⟩
        · exact ⟨leg, hleg, .refl hst⟩
      · split_ifs
        · exact ⟨leg, (leg?_modifyLeg_of_ne _ hs).trans hleg, .refl hst⟩
        · exact ⟨leg, hleg, .refl hst⟩
        · exact ⟨leg, (leg?_modifyLeg_of_ne _ hs).trans hleg, .refl hst⟩
        · exact ⟨leg, hleg, .refl hst⟩

omit [Double F] in
theorem cancelWorkingOrders_rung {p p' : Portfolio F} {n : Nat} (h : p.cancelWorkingOrders = .ok (p', n))
    {id : PositionId} {i : Nat} {leg : Leg} (hleg : p.leg? id i = some leg) (hst : leg.state ≠ .PendingOpen) :
    ∃ leg', p'.leg? id i = some leg' ∧ Rung leg leg' := by
  have hloop := Run.foldl_inv (f := abandonOrder (F := F))
    (fun acc => ∃ leg', acc.1.leg? id i = some leg' ∧ Rung leg leg') p.pending ?_
    (s := ({ p with pending := [] }, [])) ⟨leg, hleg, .refl hst⟩
  · unfold cancelWorkingOrders at h
    generalize p.pending.foldl abandonOrder ({ p with pending := [] }, []) = acc at h hloop
    obtain ⟨q, abandoned⟩ := acc
    obtain ⟨rules, _, h⟩ := Run.bind_eq_ok.mp h
    cases h
    exact hloop
  · rintro ⟨q, abandoned⟩ o - ⟨leg', hleg', hr⟩
    obtain ⟨leg'', hleg'', hr'⟩ := abandonOrder_rung o hleg' hr.opened
    refine ⟨leg'', hleg'', hr'.opened, hr'.live.trans hr.live, fun hno => ?_⟩
    rw [hr'.closed (hr.live.trans hno), hr.closed hno]

/-! ## Due expiries -/

omit [Double F] in
theorem addDue_spec {registry : InstrumentRegistry} {today : Date} {due due' : List Date} {leg : Leg}
    (h : addDue registry today due leg = .ok due') :
    (leg.live = true → ∃ spec, registry.spec leg.instrument = .ok spec) ∧
      ∀ d ∈ due', d ∈ due ∨ (d.valid = true ∧ d ≤ today) := by
  unfold addDue at h
  cases hlive : leg.live with
  | false =>
      simp only [hlive, Bool.not_false, if_true, Except.ok.injEq] at h
      subst h
      exact ⟨nofun, fun d hd => .inl hd⟩
  | true =>
      simp only [hlive, Bool.not_true, Bool.false_eq_true, if_false] at h
      obtain ⟨spec, hspec, h⟩ := Run.bind_eq_ok.mp h
      refine ⟨fun _ => ⟨spec, hspec⟩, fun d hd => ?_⟩
      split_ifs at h with hskip hdue
      · cases h
        exact .inl hd
      · cases h
        obtain rfl | hd := InstrumentRegistry.mem_insertDate.mp hd
        · simp only [Bool.or_eq_true, Bool.not_eq_true', not_or, Bool.not_eq_false] at hskip
          exact .inr ⟨hskip.2, hdue⟩
        · exact .inl hd
      · cases h
        exact .inl hd

omit [Double F] in
/-- Every held leg is of a known instrument, and the due expiries are valid dates that have arrived. -/
theorem dueExpiries_spec {p : Portfolio F} {registry : InstrumentRegistry} {today : Date} {due : List Date}
    (h : dueExpiries p registry today = .ok due) :
    (∀ id i leg, p.leg? id i = some leg → leg.live = true → ∃ spec, registry.spec leg.instrument = .ok spec) ∧
      ∀ d ∈ due, d.valid = true ∧ d ≤ today := by
  constructor
  · intro id i leg hleg hlive
    have hmem : leg ∈ p.positions.flatMap (·.legs) := mem_legs.mpr ⟨id, i, hleg⟩
    have hloop := Run.foldlM_inv_rest
      (I := fun rest (_ : List Date) => leg ∈ rest ∨ ∃ spec, registry.spec leg.instrument = .ok spec) ?_ (.inl hmem) h
    · simpa using hloop
    · rintro due leg' rest due' hin hstep
      obtain hin | hin := hin
      · obtain rfl | hin := List.mem_cons.mp hin
        · exact .inr ((addDue_spec hstep).1 hlive)
        · exact .inl hin
      · exact .inr hin
  · refine Run.foldlM_inv (fun ds : List Date => ∀ d ∈ ds, d.valid = true ∧ d ≤ today) ?_ _ _ _ (by simp) h
    intro ds leg ds' hds hstep d hd
    obtain hd | hd := (addDue_spec hstep).2 d hd
    · exact hds d hd
    · exact hd

end Portfolio

open Portfolio

/-! ## The end of a session -/

/-- The level does not depend on the portfolio. -/
theorem settlementLevel_congr {e e' : Engine F σ} (hsession : e'.session = e.session) (hdate : e'.date = e.date)
    (hclock : e'.clock = e.clock) (desk : Desk F) (expiry : Date) :
    settlementLevel (e'.ctx desk) desk.spot expiry = settlementLevel (e.ctx desk) desk.spot expiry := by
  have hctx : e'.ctx desk = { e.ctx desk with portfolio := e'.portfolio, series := e'.series.map (·.view) } := by
    unfold Engine.ctx Engine.market Engine.anchor
    rw [hsession, hdate, hclock]
  rw [hctx]
  rfl

/-- The leg is settled against the level of the run's underlying. -/
def Settled (desk : Desk F) (e : Engine F σ) (spec : InstrumentSpec) (leg leg' : Leg) : Prop :=
  ∃ level, settlementLevel (e.ctx desk) desk.spot spec.expiry = some level ∧
    leg' = settledLeg spec level e.clock leg

/-- **The settlements of a session.** A held leg is settled if it is an option of a due expiry. -/
theorem settleDues_leg {desk : Desk F} {handling : ExpiryHandling} {e : Engine F σ} {due : List Date}
    {acc : Engine F σ × Nat} (h : due.foldlM (Engine.settleDue desk handling) (e, 0) = .ok acc) {id : PositionId}
    {i : Nat} {leg : Leg} {spec : InstrumentSpec} (hleg : e.portfolio.leg? id i = some leg) (hlive : leg.live = true)
    (hspec : e.session.registry.spec leg.instrument = .ok spec) :
    ∃ leg', acc.1.portfolio.leg? id i = some leg' ∧
      ((spec.isOption = true ∧ spec.expiry ∈ due ∧ Settled desk e spec leg leg') ∨
        (leg' = leg ∧ (spec.isOption = true → spec.expiry ∉ due))) := by
  have hst : leg.state ≠ .PendingOpen := by
    intro hst
    simp [Leg.live, hst] at hlive
  -- on the way: settled, or as it was, with its expiry still to come if it is due at all
  have hloop := Run.foldlM_inv_rest
    (I := fun rest acc => (acc.1.session = e.session ∧ acc.1.date = e.date ∧ acc.1.clock = e.clock) ∧
      (∀ d ∈ rest, d ∈ due) ∧ ∃ leg', acc.1.portfolio.leg? id i = some leg' ∧
        ((spec.isOption = true ∧ spec.expiry ∈ due ∧ Settled desk e spec leg leg') ∨
          (leg' = leg ∧ (spec.isOption = true → spec.expiry ∈ due → spec.expiry ∈ rest)))) ?_
    ⟨⟨rfl, rfl, rfl⟩, fun _ hd => hd, leg, hleg, .inr ⟨rfl, fun _ hd => hd⟩⟩ h
  · obtain ⟨_, _, leg', hleg', hcase⟩ := hloop
    refine ⟨leg', hleg', hcase.imp_right ?_⟩
    rintro ⟨heq, hno⟩
    exact ⟨heq, fun hopt hd => absurd (hno hopt hd) List.not_mem_nil⟩
  · rintro ⟨e₁, k⟩ expiry rest acc' ⟨⟨hs, hd, hc⟩, hsub, leg', hleg', hcase⟩ hstep
    simp only [Engine.settleDue] at hstep
    obtain ⟨_, hstep⟩ := Run.guard_eq_ok.mp hstep
    split at hstep
    · cases hstep
    · next level hlevel =>
      obtain ⟨⟨p, m⟩, hsettle, hstep⟩ := Run.bind_eq_ok.mp hstep
      cases hstep
      rw [settlementLevel_congr hs hd hc] at hlevel
      refine ⟨⟨hs, hd, hc⟩, fun d hd => hsub d (List.mem_cons_of_mem _ hd), ?_⟩
      obtain ⟨hopt, hdue, lvl, hlvl, rfl⟩ | ⟨rfl, hrest⟩ := hcase
      · -- a settled leg is not held, and stays as it is
        refine ⟨_, settleExpiry_leg hsettle hleg' (fun hst => by cases hst), .inl ⟨hopt, hdue, lvl, hlvl, ?_⟩⟩
        exact settledOn_of_not_live rfl
      · have hspec' : e₁.market.registry.spec leg'.instrument = .ok spec := by
          show e₁.session.registry.spec leg'.instrument = .ok spec
          rw [hs]
          exact hspec
        refine ⟨_, settleExpiry_leg hsettle hleg' hst, ?_⟩
        rw [settledOn_of_live hlive hspec', hc]
        by_cases hexp : expiresOn spec expiry = true
        · rw [if_pos hexp]
          simp only [expiresOn, Bool.and_eq_true, decide_eq_true_eq] at hexp
          obtain ⟨hopt, rfl⟩ := hexp
          exact .inl ⟨hopt, hsub _ (List.mem_cons_self ..), level, hlevel, rfl⟩
        · rw [if_neg hexp]
          refine .inr ⟨rfl, fun hopt hdue => ?_⟩
          obtain heq | hin := List.mem_cons.mp (hrest hopt hdue)
          · exact absurd (by simp [expiresOn, hopt, heq]) hexp
          · exact hin

/-- **What the end of a session makes of a held leg**: an expired option is settled, and every other leg is still
    held. -/
theorem endSession_leg {desk : Desk F} {config : BacktestConfig F} {e e' : Engine F σ} {n : Nat}
    (h : e.endSession desk config = .ok (e', n)) {id : PositionId} {i : Nat} {leg : Leg}
    (hleg : e.portfolio.leg? id i = some leg) (hlive : leg.live = true) :
    ∃ spec leg', e.session.registry.spec leg.instrument = .ok spec ∧ e'.portfolio.leg? id i = some leg' ∧
      ((Expired e.session.registry e.date leg spec ∧ Settled desk (e.toSettlement config) spec leg leg') ∨
        (¬ Expired e.session.registry e.date leg spec ∧ leg'.live = true)) := by
  obtain ⟨hs₀, hd₀, hp₀, _⟩ := Engine.toSettlement_cases config e
  unfold Engine.endSession at h
  dsimp only at h
  generalize e.toSettlement config = e₀ at h hs₀ hd₀ hp₀
  rw [← hs₀, ← hd₀]
  rw [← hp₀] at hleg
  obtain ⟨due, hdue, h⟩ := Run.bind_eq_ok.mp h
  obtain ⟨⟨e₁, k⟩, hsettle, h⟩ := Run.bind_eq_ok.mp h
  obtain ⟨e₂, hcancel, h⟩ := Run.bind_eq_ok.mp h
  cases h
  obtain ⟨hp₂, _⟩ := Engine.operate_cases hcancel
  obtain ⟨b, hp₂⟩ := fst_map_eq_ok hp₂
  obtain ⟨hknown, harrived⟩ := dueExpiries_spec hdue
  obtain ⟨spec, hspec⟩ := hknown id i leg hleg hlive
  obtain ⟨leg₁, hleg₁, hcase⟩ := settleDues_leg hsettle hleg hlive hspec
  obtain ⟨hopt, hin, hset⟩ | ⟨rfl, hnot⟩ := hcase
  · -- settled, and cancelling orders keeps it closed
    have hexp : Expired e₀.session.registry e₀.date leg spec :=
      ⟨hlive, hspec, hopt, (harrived _ hin).1, (harrived _ hin).2⟩
    obtain ⟨level, hlevel, rfl⟩ := hset
    obtain ⟨leg', hleg', hr⟩ := cancelWorkingOrders_rung hp₂ hleg₁ nofun
    rw [hr.closed rfl] at hleg'
    exact ⟨spec, _, hspec, hleg', .inl ⟨hexp, level, hlevel, rfl⟩⟩
  · -- not due, and cancelling orders keeps it held
    have hst : leg₁.state ≠ .PendingOpen := by
      intro hst
      simp [Leg.live, hst] at hlive
    obtain ⟨leg', hleg', hr⟩ := cancelWorkingOrders_rung hp₂ hleg₁ hst
    refine ⟨spec, leg', hspec, hleg', .inr ⟨fun hexp => ?_, hr.live.trans hlive⟩⟩
    exact hnot hexp.option (mem_dueExpiries hdue hleg hexp)

/-! ## Main result -/

/-- The settlement level of an underlying: that of the run's own, and for another one that of its spot in the
    registry and of its own chain. -/
def Ctx.levelOf (c : Ctx F) (u : UnderlyingId) (expiry : Date) : Option F :=
  settlementLevel { c with underlying := u }
    (if u = c.underlying then c.spot else (c.registry.findSpot u).getD (-1)) expiry

theorem Ctx.levelOf_own (c : Ctx F) (expiry : Date) :
    c.levelOf c.underlying expiry = settlementLevel c c.spot expiry := by
  simp [levelOf]

/-- The end of one of the sessions of a run: the engine after the last step, and after the bell. -/
inductive SessionEnd (desk : Desk F) (config : BacktestConfig F) (source : DataSource) (strategy : Strategy F)
    (dates : List Date) : Engine F strategy.State → Engine F strategy.State → Prop where
  | bell {front date : Date} {before after : List Date} {c₀ c₁ : Campaign F strategy.State} {session : SessionData}
      {e e' : Engine F strategy.State} {n : Nat} (hfront : dates.head? = some front)
      (hstart : startCampaign desk source strategy front = .ok c₀) (hdates : dates = before ++ date :: after)
      (hbefore : replayDates desk config source strategy before c₀ = .ok c₁)
      (hload : source.load date = .ok (some session))
      (hsteps : c₁.during desk strategy session date session.steps = .ok e)
      (hend : e.endSession desk config = .ok (e', n)) : SessionEnd desk config source strategy dates e e'

/-- The option pays `price`, in paise, at the level: what the level is above the strike for a call, below it for a put,
    and never less than nothing. -/
structure PaysAt (spec : InstrumentSpec) (level : F) (price : Price) : Prop where
  call : spec.right = .Call →
    price = Double.toPrice (Double.max Double.zero (level - Double.ofMinor spec.strike.toInt))
  put : spec.right ≠ .Call →
    price = Double.toPrice (Double.max Double.zero (Double.ofMinor spec.strike.toInt - level))

theorem paysAt_iff {spec : InstrumentSpec} {level : F} {price : Price} :
    PaysAt spec level price ↔ price = Double.toPrice (intrinsicValue spec level) := by
  unfold intrinsicValue
  by_cases hright : spec.right = .Call
  · simp only [hright, if_true]
    exact ⟨fun h => h.call hright, fun h => ⟨fun _ => h, fun hput => absurd hright hput⟩⟩
  · simp only [hright, if_false]
    exact ⟨fun h => h.put hright, fun h => ⟨fun hcall => absurd hcall hright, fun _ => h⟩⟩

/-- A leg settled at the end of the session is closed at what it pays at the level of its own underlying. -/
def SettlesAtOwnLevel (c : Ctx F) (e e' : Engine F σ) : Prop :=
  ∀ id i leg leg', e.portfolio.leg? id i = some leg → leg.live = true → e'.portfolio.leg? id i = some leg' →
    leg'.state = .Closed → ∃ spec level, e.session.registry.spec leg.instrument = .ok spec ∧
      c.levelOf spec.underlying spec.expiry = some level ∧ PaysAt spec level leg'.exit

/-- The option is on the run's underlying, or there is a level of its own at which it pays the same. -/
def SameWorth (c : Ctx F) (spec : InstrumentSpec) : Prop :=
  spec.underlying = c.underlying ∨ ∃ own level : F, c.levelOf spec.underlying spec.expiry = some own ∧
    c.levelOf c.underlying spec.expiry = some level ∧ ∃ price, PaysAt spec own price ∧ PaysAt spec level price

/-- **Which sessions settle options against their own underlying**: those at whose end each option that is due is
    on the run's underlying, or pays the same there. -/
theorem settles_at_own_level_iff {source : DataSource} {underlying : UnderlyingId} {spot : InstrumentId}
    {strategy : Strategy F} {config : BacktestConfig F} {dates : List Date} {e e' : Engine F strategy.State}
    (h : SessionEnd (backtestDesk underlying spot config dates) config source strategy dates e e') :
    SettlesAtOwnLevel ((e.toSettlement config).ctx (backtestDesk underlying spot config dates)) e e' ↔
      ∀ id i leg spec, e.portfolio.leg? id i = some leg → Expired e.session.registry e.date leg spec →
        SameWorth ((e.toSettlement config).ctx (backtestDesk underlying spot config dates)) spec := by
  obtain ⟨_, _, _, _, _, _, hend⟩ := h
  generalize hc : (e.toSettlement config).ctx (backtestDesk underlying spot config dates) = c
  have hown : ∀ expiry, settlementLevel ((e.toSettlement config).ctx (backtestDesk underlying spot config dates))
      (backtestDesk underlying spot config dates).spot expiry = c.levelOf c.underlying expiry := by
    intro expiry
    rw [c.levelOf_own, ← hc]
    rfl
  constructor
  · intro hright id i leg spec hleg hexp
    obtain ⟨spec₀, leg', hspec₀, hleg', hcase⟩ := endSession_leg hend hleg hexp.live
    have hsame : spec = spec₀ := by
      have := hexp.resolves
      rw [hspec₀, Except.ok.injEq] at this
      exact this.symm
    subst hsame
    obtain ⟨_, level, hlevel, rfl⟩ | ⟨hnot, _⟩ := hcase
    · rw [hown] at hlevel
      obtain ⟨spec₁, own, hspec₁, hlvl, hexit⟩ := hright id i leg _ hleg hexp.live hleg' rfl
      rw [hspec₀, Except.ok.injEq] at hspec₁
      subst hspec₁
      exact .inr ⟨own, level, hlvl, hlevel, _, hexit, paysAt_iff.mpr rfl⟩
    · exact absurd hexp hnot
  · intro hworth id i leg leg' hleg hlive hleg' hclosed
    obtain ⟨spec, leg₁, hspec, hleg₁, hcase⟩ := endSession_leg hend hleg hlive
    rw [hleg', Option.some.injEq] at hleg₁
    subst hleg₁
    obtain ⟨hexp, level, hlevel, rfl⟩ | ⟨_, hlive'⟩ := hcase
    · rw [hown] at hlevel
      obtain hsame | ⟨own, level', hlvl, hlevel', price, hown', hrun⟩ := hworth id i leg spec hleg hexp
      · refine ⟨spec, level, hspec, ?_, paysAt_iff.mpr rfl⟩
        rw [hsame]
        exact hlevel
      · rw [hlevel, Option.some.injEq] at hlevel'
        subst hlevel'
        obtain rfl := paysAt_iff.mp hrun
        exact ⟨spec, own, hspec, hlvl, hown'⟩
    · simp [Leg.live, hclosed] at hlive'

/-! ### A book on two underlyings -/

/-- Two spots, and a call on the second one, struck at 500.00. -/
def mixedRegistry : InstrumentRegistry :=
  ((((({} : InstrumentRegistry).internUnderlying [65]).1.internUnderlying [66]).1.add { underlying := 0 }).1.add
    { underlying := 1 }).1.add
      { underlying := 1, kind := .Option, expiry := ⟨20250701⟩, strike := 50000 } |>.1

/-- The first spot stands at 100.00, the second one at 600.00. -/
def mixedSession : SessionData where
  date := ⟨20250701⟩
  registry := mixedRegistry
  instruments := [0, 1, 2]
  quotes id :=
    let price : Int32 := if id = 1 then 60000 else 10000
    if id = 0 ∨ id = 1 ∨ id = 2 then
      { ts := [1], last := [price], bid := [price], ask := [price], bidQty := [1], askQty := [1], lastQty := [1],
        openInterest := [0] }
    else {}
  totalObservations := 3
  eventOrder := []
  timeline := [1]
  printedBy id t := (id = 0 || id = 1 || id = 2) && 1 ≤ t

def mixedSource : DataSource where
  sessions := [⟨20250701⟩]
  load _ := .ok (some mixedSession)

/-- Buys the call and holds it. -/
def buyCall : Strategy ℚ where
  State := Unit
  start := .order (.buy [2] 1 "held") fun _ => .finish
  resume _ := .finish

/-- A run with one of the two underlyings and its spot, which have the same number. -/
def mixedDesk (u : UnderlyingId) : Desk ℚ := backtestDesk u u undatedConfig [⟨20250701⟩]

/-- The run up to its bell, and over it. -/
def mixedRun (u : UnderlyingId) : Except Error (Campaign ℚ Unit × Engine ℚ Unit × Engine ℚ Unit) := do
  let c₀ ← startCampaign (mixedDesk u) mixedSource buyCall ⟨20250701⟩
  let e ← c₀.during (mixedDesk u) buyCall mixedSession ⟨20250701⟩ mixedSession.steps
  let (e', _) ← e.endSession (mixedDesk u) undatedConfig
  return (c₀, e, e')

theorem mixedRun_sessionEnd {u : UnderlyingId} {c₀ : Campaign ℚ Unit} {e e' : Engine ℚ Unit}
    (h : mixedRun u = .ok (c₀, e, e')) :
    SessionEnd (mixedDesk u) undatedConfig mixedSource buyCall [⟨20250701⟩] e e' := by
  obtain ⟨c₀, hstart, h⟩ := Run.bind_eq_ok.mp h
  obtain ⟨e, hsteps, h⟩ := Run.bind_eq_ok.mp h
  obtain ⟨⟨e', n⟩, hend, h⟩ := Run.bind_eq_ok.mp h
  cases h
  have hdates : [(⟨20250701⟩ : Date)] = [] ++ ⟨20250701⟩ :: [] := rfl
  exact .bell rfl hstart hdates rfl rfl hsteps hend

/-- What evaluation says about the book at the bell: the call is held. -/
def HoldsCall (e : Engine ℚ Unit) : Prop :=
  e.session.registry = mixedRegistry ∧
  e.portfolio.positions.map (fun pos => pos.legs.map (fun l => (l.instrument, l.live))) = [[(2, true)]]

instance (e : Engine ℚ Unit) : Decidable (HoldsCall e) := inferInstanceAs (Decidable (_ ∧ _))

/-- Every leg of the book is the call. -/
theorem HoldsCall.leg {e : Engine ℚ Unit} (h : HoldsCall e)
    {id : PositionId} {i : Nat} {leg : Leg} (hleg : e.portfolio.leg? id i = some leg) : leg.instrument = 2 := by
  obtain ⟨pos, hpos, hi⟩ := leg?_eq_some.mp hleg
  have hmem : (leg.instrument, leg.live) ∈ pos.legs.map (fun l => (l.instrument, l.live)) :=
    List.mem_map.mpr ⟨leg, List.mem_of_getElem? hi, rfl⟩
  have hpos : pos.legs.map (fun l => (l.instrument, l.live)) ∈ [[((2 : InstrumentId), true)]] := by
    rw [← h.2]
    exact List.mem_map.mpr ⟨pos, List.mem_of_getElem? hpos, rfl⟩
  rw [List.mem_singleton.mp hpos, List.mem_singleton] at hmem
  exact congrArg Prod.fst hmem

/-- Run with the first underlying, the call on the second one is closed at nothing, though it is worth 100.00. -/
theorem call_settles_at_other_underlying :
    ∃ e e', SessionEnd (mixedDesk 0) undatedConfig mixedSource buyCall [⟨20250701⟩] e e' ∧
      ¬ SettlesAtOwnLevel ((e.toSettlement undatedConfig).ctx (mixedDesk 0)) e e' := by
  obtain ⟨⟨c₀, e, e'⟩, hrun, htest⟩ := Run.exists_of_succeeds
    (fun x => HoldsCall x.2.1 ∧
      ((x.2.1.toSettlement undatedConfig).ctx (mixedDesk 0)).levelOf 1 ⟨20250701⟩ = some 600 ∧
      (x.2.1.portfolio.leg? 0 0).any (fun l => l.live) = true ∧
      (x.2.2.portfolio.leg? 0 0).any (fun l => l.state == .Closed && l.exit == 0) = true)
    (mixedRun 0) (by decide +kernel)
  obtain ⟨hbook, hlevel, hheld, hclosed⟩ := of_decide_eq_true htest
  obtain ⟨leg, hleg, hlive⟩ := (Option.any_eq_true _ _).mp hheld
  obtain ⟨leg', hleg', hclosed⟩ := (Option.any_eq_true _ _).mp hclosed
  simp only [Bool.and_eq_true, beq_iff_eq] at hclosed
  refine ⟨e, e', mixedRun_sessionEnd hrun, fun hright => ?_⟩
  obtain ⟨spec, level, hspec, hown, hexit⟩ := hright 0 0 leg leg' hleg hlive hleg' hclosed.1
  rw [hbook.leg hleg, hbook.1] at hspec
  cases hspec
  have hsame : some level = some (600 : ℚ) := hown.symm.trans hlevel
  cases hsame
  have hpaid := hexit.call rfl
  rw [hclosed.2] at hpaid
  exact absurd hpaid (by decide +kernel)

/-- Run with the second underlying, it is closed at what it is worth. -/
theorem settles_at_own_level_iff_call :
    ∃ e e', SessionEnd (mixedDesk 1) undatedConfig mixedSource buyCall [⟨20250701⟩] e e' ∧
      SettlesAtOwnLevel ((e.toSettlement undatedConfig).ctx (mixedDesk 1)) e e' := by
  obtain ⟨⟨c₀, e, e'⟩, hrun, htest⟩ := Run.exists_of_succeeds
    (fun x => HoldsCall x.2.1) (mixedRun 1) (by decide +kernel)
  have hbook : HoldsCall e := of_decide_eq_true htest
  have hend := mixedRun_sessionEnd hrun
  refine ⟨e, e', hend, (settles_at_own_level_iff hend).mpr ?_⟩
  intro id i leg spec hleg hexp
  have hspec := hexp.resolves
  rw [hbook.leg hleg, hbook.1] at hspec
  cases hspec
  exact .inl rfl

end Volforge
