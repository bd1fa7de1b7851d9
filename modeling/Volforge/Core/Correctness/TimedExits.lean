import Volforge.Core.Correctness.Rules

/-!
# `Core.Correctness.TimedExits` — when a timed exit acts on what is held

A rule on the whole position is looked at only once the position is established. With no leg still waiting to
open, a due exit therefore spends every leg of its position (`dueExit_spends`); with one still waiting, nothing
a rule does reaches that leg (`processRule_waiting`), and its opening order stays in the queue.

## Contents
- **Progress.** The loop over the rules returns.
- **Held legs.** Without fills and settlements a held leg stays held.
- **The two cases.** One step lemma for each, and `timed_exits_act_iff`.
-/

namespace Volforge

variable {F : Type}

namespace Portfolio

/-! ## Progress -/

theorem submitCloseLeg_total {p : Portfolio F} {id : PositionId} {i : Nat} {leg : Leg} (now : Timestamp)
    (hleg : p.leg? id i = some leg) : ∃ p', p.submitCloseLeg id i now = .ok p' := by
  obtain ⟨pos, hpos, hi⟩ := leg?_eq_some.mp hleg
  simp only [submitCloseLeg, atId_eq_ok.mpr hpos, Run.ok_bind, hi]
  split
  · exact ⟨p, rfl⟩
  · exact ⟨_, rfl⟩

theorem closeIfOpen_total (id : PositionId) (now : Timestamp) (p : Portfolio F) (i : Nat) :
    ∃ p', closeIfOpen id now p i = .ok p' := by
  unfold closeIfOpen
  cases hleg : p.leg? id i with
  | none => exact ⟨p, rfl⟩
  | some leg =>
      dsimp only
      split
      · exact submitCloseLeg_total now hleg
      · exact ⟨p, rfl⟩

theorem submitClose_total {p : Portfolio F} {id : PositionId} {pos : Position} (now : Timestamp)
    (hpos : p.positions[id]? = some pos) : ∃ p', p.submitClose id now = .ok p' := by
  simp only [submitClose, atId_eq_ok.mpr hpos, Run.ok_bind]
  have hturn : ∀ q : Portfolio F, ∀ i ∈ List.range pos.legs.length, True →
      ∃ q', closeIfOpen id now q i = .ok q' ∧ True :=
    fun q i _ _ => (closeIfOpen_total id now q i).imp fun _ h => ⟨h, trivial⟩
  obtain ⟨p', hp', _⟩ := Run.foldlM_total _ _ hturn trivial
  exact ⟨p', hp'⟩

variable [Double F]

omit [Double F] in
theorem fireRule_total {p : Portfolio F} (k : Nat) {rule : RiskRule F} {pos : Position} (now : Timestamp)
    (hpos : p.positions[rule.position]? = some pos)
    (hleg : ∀ i, rule.leg = some i → ∃ leg, pos.legs[i]? = some leg) :
    ∃ p', p.fireRule k rule now = .ok p' := by
  have hclose : ∃ q, (p.startRule k).closeScope rule now = .ok q := by
    unfold closeScope
    cases hscope : rule.leg with
    | none => exact submitClose_total now hpos
    | some i =>
        obtain ⟨leg, hi⟩ := hleg i hscope
        have hslot : (p.startRule k).leg? rule.position i = some leg :=
          leg?_eq_some.mpr ⟨pos, hpos, hi⟩
        exact submitCloseLeg_total now hslot
  obtain ⟨q, hq⟩ := hclose
  exact ⟨_, fireRule_eq_ok.mpr ⟨q, hq, rfl⟩⟩

/-- A turn of the loop over the rules returns: every rule is about a position that exists. -/
theorem processRule_total {p : Portfolio F} (h : Covered p) (market : MarketView) (k : Nat) :
    ∃ p', processRule market p k = .ok p' := by
  unfold processRule
  cases hrule : p.rules[k]? with
  | none => exact ⟨p, rfl⟩
  | some rule =>
      have hknown := h.known rule (List.mem_of_getElem? hrule)
      have hpos := List.getElem?_eq_getElem hknown
      simp only [atId_eq_ok.mpr hpos, Run.ok_bind]
      split
      · exact ⟨p, rfl⟩
      split
      · exact ⟨_, rfl⟩
      cases hscope : rule.leg with
      | none =>
          dsimp only
          split
          · exact ⟨p, rfl⟩
          split
          · exact ⟨p, rfl⟩
          · exact fireRule_total k market.now hpos (by simp [hscope])
      | some i =>
          dsimp only
          cases hi : p.positions[rule.position].legs[i]? with
          | none => exact ⟨_, rfl⟩
          | some leg =>
              dsimp only
              split
              · exact ⟨p, rfl⟩
              split
              · exact ⟨p, rfl⟩
              · refine fireRule_total k market.now hpos ?_
                intro j hj
                rw [hscope, Option.some.injEq] at hj
                subst hj
                exact ⟨leg, hi⟩

/-- `process_risk_rules` returns. -/
theorem processRiskRules_total {p : Portfolio F} (h : Covered p) (hmat : Matched noneExpired p)
    (market : MarketView) : ∃ p', p.processRiskRules market = .ok p' := by
  have hturn : ∀ q : Portfolio F, ∀ k ∈ List.range p.rules.length, Covered q ∧ Matched noneExpired q →
      ∃ q', processRule market q k = .ok q' ∧ Covered q' ∧ Matched noneExpired q' := by
    rintro q k - ⟨hq, hqmat⟩
    obtain ⟨q', hstep⟩ := processRule_total hq market k
    refine ⟨q', hstep, processRule_covered hq hqmat hstep, ?_⟩
    exact hqmat.moves (processRule_moves (c := q.quietScope market.now) (fun hno => hno) rfl hstep)
  obtain ⟨p', hp', _⟩ := Run.foldlM_total _ _ hturn ⟨h, hmat⟩
  exact ⟨p', hp'⟩

/-! ## Held legs -/

/-- Without a market and with nothing expired, one move leaves a held leg held. -/
theorem Move.stays_live {c : Scope} (hquiet : ∀ id, ¬ c.traded id) (hidle : ∀ id, ¬ c.expired id)
    {p p' : Portfolio F} (hmat : Matched c.expired p) (hm : Move c p p') {id : PositionId} {i : Nat} {leg : Leg}
    (hleg : p.leg? id i = some leg) (hlive : leg.live = true) :
    ∃ leg', p'.leg? id i = some leg' ∧ leg'.live = true := by
  cases hm with
  | position label =>
      rw [leg?_addPosition]
      exact ⟨leg, hleg, hlive⟩
  | @opens id' side qty inst _ hid _ =>
      have hpos : p.positions[id']? = some p.positions[id'] := List.getElem?_eq_getElem hid
      rw [leg?_openLeg side qty c.now inst hpos, if_neg]
      · exact ⟨leg, hleg, hlive⟩
      · rintro ⟨rfl, rfl⟩
        rw [leg?_of_position hpos, List.getElem?_eq_none (Nat.le_refl _)] at hleg
        cases hleg
  | @exits id' i' leg₀ hleg₀ hopen =>
      by_cases hs : id = id' ∧ i = i'
      · obtain ⟨rfl, rfl⟩ := hs
        exact ⟨_, leg?_modifyLeg_self _ hleg, rfl⟩
      · exact ⟨leg, (leg?_modifyLeg_of_ne _ hs).trans hleg, hlive⟩
  | fills _ _ _ hquote _ => exact absurd ⟨_, hquote⟩ (hquiet _)
  | @withdraws before after o hpend hopening =>
      -- the order's leg had not opened, so it is another one
      obtain ⟨leg₀, hleg₀, _, hst, _⟩ := hmat.opening (by simp [hpend]) hopening
      have hs : ¬ (id = o.position ∧ i = o.legIndex) := by
        rintro ⟨rfl, rfl⟩
        rw [hleg, Option.some.injEq] at hleg₀
        subst hleg₀
        simp [Leg.live, hst] at hlive
      exact ⟨leg, (leg?_modifyLeg_of_ne (p := p.withPending (before ++ after)) _ hs).trans hleg, hlive⟩
  | @abandons before after o _ _ hpend hclosing =>
      by_cases hs : id = o.position ∧ i = o.legIndex
      · obtain ⟨rfl, rfl⟩ := hs
        exact ⟨_, leg?_modifyLeg_self (p := p.withPending (before ++ after)) _ hleg, rfl⟩
      · exact ⟨leg, (leg?_modifyLeg_of_ne (p := p.withPending (before ++ after)) _ hs).trans hleg, hlive⟩
  | settles _ _ hexp => exact absurd hexp (hidle _)
  | drops => exact ⟨leg, hleg, hlive⟩
  | marks f hf =>
      obtain ⟨m, t, heq⟩ := hf leg
      rw [leg?_marks, hleg, Option.map_some, heq]
      exact ⟨_, rfl, hlive⟩
  | rules => exact ⟨leg, hleg, hlive⟩

/-- **What is held stays held** in an operation that neither trades nor settles. -/
theorem Moves.stays_live {c : Scope} (hquiet : ∀ id, ¬ c.traded id) (hidle : ∀ id, ¬ c.expired id)
    {p p' : Portfolio F} (hmat : Matched c.expired p) (hm : Moves c p p') {id : PositionId} {i : Nat} {leg : Leg}
    (hleg : p.leg? id i = some leg) (hlive : leg.live = true) :
    ∃ leg', p'.leg? id i = some leg' ∧ leg'.live = true := by
  have hinv := hm.inv (fun q => Matched c.expired q ∧ ∃ l, q.leg? id i = some l ∧ l.live = true) ?_
    ⟨hmat, leg, hleg, hlive⟩
  · exact hinv.2
  · rintro q q' ⟨hqmat, l, hl, hlive⟩ hmove
    exact ⟨hqmat.move hmove, hmove.stays_live hquiet hidle hqmat hl hlive⟩

/-! ## The loop over the rules -/

/-- The moves of one turn. -/
theorem processRule_quiet {p q q' : Portfolio F} {market : MarketView} {j : Nat}
    (hstep : processRule market q j = .ok q') : Moves (p.quietScope market.now) q q' :=
  processRule_moves (c := p.quietScope market.now) (fun hno => hno) rfl hstep

/-- A turn leaves the other rules as they are. -/
theorem processRule_other {q q' : Portfolio F} {market : MarketView} {j k : Nat} (hjk : j ≠ k)
    (hstep : processRule market q j = .ok q') : q'.rules[k]? = q.rules[k]? := by
  have hset : (q.setFired j).rules[k]? = q.rules[k]? := by
    simp [setFired, hjk]
  obtain rfl | ⟨rule, pos, _, _, _, ⟨rfl, _⟩ | ⟨_, _, hfire⟩⟩ := processRule_cases hstep
  · rfl
  · exact hset
  · obtain ⟨q₁, hclose, rfl⟩ := fireRule_eq_ok.mp hfire
    have hmoves : Moves (q.firingScope market.now) (q.startRule j) q₁ := closeScope_moves hclose
    have hrules : q₁.rules = (q.setFired j).rules := hmoves.rules_eq trivial
    show q₁.rules[k]? = _
    rw [hrules, hset]

/-- A position with something open and nothing waiting to open is established. -/
theorem established_of_none_waiting {pos : Position} (hopen : pos.isOpen = true)
    (hnone : ∀ leg ∈ pos.legs, leg.state ≠ .PendingOpen) : pos.established = true := by
  unfold Position.established
  rw [Bool.and_eq_true, List.all_eq_true, List.any_eq_true]
  constructor
  · intro leg hleg
    have hst := hnone leg hleg
    cases h : leg.state <;> simp_all [Leg.cancelled, Leg.filled]
  · obtain ⟨leg, hleg, hl⟩ := List.any_eq_true.mp hopen
    have hst := hnone leg hleg
    refine ⟨leg, hleg, ?_⟩
    cases h : leg.state <;> simp_all [Leg.cancelled, Leg.live]

/-- **A due exit spends its position**, when no leg of it is waiting to open. -/
theorem dueExit_spends {q q' : Portfolio F} {market : MarketView} {k : Nat} {rule : RiskRule F}
    (hmat : Matched noneExpired q) (hcov : Covered q) (hrule : q.rules[k]? = some rule)
    (harmed : rule.fired = false) (hkind : rule.kind = .ExitAt) (hscope : rule.leg = none)
    (hdue : rule.deadline ≤ market.now)
    (hnone : ∀ i leg, q.leg? rule.position i = some leg → leg.state ≠ .PendingOpen)
    (hstep : processRule market q k = .ok q') : SpentScope rule q' := by
  have hknown := hcov.known rule (List.mem_of_getElem? hrule)
  have hpos := List.getElem?_eq_getElem hknown
  generalize q.positions[rule.position] = pos at hpos
  unfold processRule at hstep
  simp only [hrule, harmed, Bool.false_eq_true, if_false, atId_eq_ok.mpr hpos, Run.ok_bind, hscope] at hstep
  cases hopen : pos.isOpen with
  | false =>
      -- nothing of the position is left, and the rule is merely marked
      simp only [hopen, Bool.not_false, if_true] at hstep
      cases hstep
      intro i leg _ hleg
      exact spent_of_not_open hpos hopen hleg
  | true =>
      have hest : pos.established = true := by
        refine established_of_none_waiting hopen (fun leg hleg => ?_)
        obtain ⟨i, hi⟩ := List.mem_iff_getElem?.mp hleg
        exact hnone i leg (by rw [leg?_of_position hpos, hi])
      have htrig : triggered rule pos market = true := by
        unfold triggered
        simp [hkind, hdue]
      simp only [hopen, hest, htrig, Bool.not_true, Bool.false_eq_true, if_false] at hstep
      obtain ⟨q₁, hclose, rfl⟩ := fireRule_eq_ok.mp hstep
      have hspent : SpentScope rule q₁ :=
        closeScope_spent (p := q.startRule k) hmat hpos (by simp [hscope]) (fun _ => hest) hclose
      exact hspent

/-! ## A leg that is still waiting -/

omit [Double F] in
/-- Closing one leg leaves a leg that is waiting to open alone. -/
theorem submitCloseLeg_waiting {q q' : Portfolio F} {id id' : PositionId} {i i' : Nat} {leg : Leg}
    {now : Timestamp} (hleg : q.leg? id i = some leg) (hst : leg.state = .PendingOpen)
    (h : q.submitCloseLeg id' i' now = .ok q') : q'.leg? id i = some leg := by
  obtain ⟨pos, hpos, h⟩ := Run.bind_eq_ok.mp h
  cases hi : pos.legs[i']? with
  | none => simp [hi] at h
  | some leg₀ =>
      have hslot : q.leg? id' i' = some leg₀ := by rw [leg?_of_position (atId_eq_ok.mp hpos), hi]
      simp only [hi] at h
      by_cases hopen : leg₀.state = .Open
      · rw [if_neg (by simpa using hopen)] at h
        cases h
        have hs : ¬ (id = id' ∧ i = i') := by
          rintro ⟨rfl, rfl⟩
          rw [hleg, Option.some.injEq] at hslot
          subst hslot
          rw [hst] at hopen
          cases hopen
        exact (leg?_modifyLeg_of_ne _ hs).trans hleg
      · rw [if_pos hopen] at h
        cases h
        exact hleg

omit [Double F] in
/-- Closing another position leaves it alone too. -/
theorem submitClose_waiting {q q' : Portfolio F} {id id' : PositionId} {i : Nat} {leg : Leg}
    {now : Timestamp} (hne : id ≠ id') (hleg : q.leg? id i = some leg) (hst : leg.state = .PendingOpen)
    (h : q.submitClose id' now = .ok q') : q'.leg? id i = some leg := by
  obtain ⟨pos, _, h⟩ := Run.bind_eq_ok.mp h
  have hcancel := Run.foldl_inv (f := cancelOpening id') (fun r => r.leg? id i = some leg) q.pending
    ?_ (s := { q with pending := [] }) hleg
  · refine Run.foldlM_inv (fun r => r.leg? id i = some leg) (fun r j r' hr hstep => ?_) _ _ q' hcancel h
    unfold closeIfOpen at hstep
    split at hstep
    · split at hstep
      · exact submitCloseLeg_waiting hr hst hstep
      · cases hstep
        exact hr
    · cases hstep
      exact hr
  · intro r o _ hr
    unfold cancelOpening
    split_ifs
    · refine (leg?_modifyLeg_of_ne _ ?_).trans hr
      exact fun hs => hne hs.1
    · exact hr

/-- **No rule reaches a leg that is waiting to open.** -/
theorem processRule_waiting {q q' : Portfolio F} {market : MarketView} {k : Nat} {id : PositionId} {i : Nat}
    {leg : Leg} (hleg : q.leg? id i = some leg) (hst : leg.state = .PendingOpen)
    (hstep : processRule market q k = .ok q') : q'.leg? id i = some leg := by
  obtain rfl | ⟨rule, pos, _, _, hpos, ⟨rfl, _⟩ | ⟨_, hest, hfire⟩⟩ := processRule_cases hstep
  · exact hleg
  · exact hleg
  · obtain ⟨q₁, hclose, rfl⟩ := fireRule_eq_ok.mp hfire
    have hstart : (q.startRule k).leg? id i = some leg := hleg
    show q₁.leg? id i = some leg
    unfold closeScope at hclose
    cases hscope : rule.leg with
    | some j =>
        rw [hscope] at hclose
        exact submitCloseLeg_waiting hstart hst hclose
    | none =>
        rw [hscope] at hclose
        refine submitClose_waiting ?_ hstart hst hclose
        -- the rule's position is established, so it is another one
        rintro rfl
        exact not_pendingOpen_of_established hpos (hest hscope) hleg hst

/-! ### Its opening order

Closing orders are put behind what is queued, and the only orders that are taken out open legs of the position that is
closed. So the order that opens a waiting leg stays in the queue.
-/

omit [Double F] in
theorem submitCloseLeg_keeps {q q' : Portfolio F} {id : PositionId} {i : Nat} {now : Timestamp} {o : PendingOrder}
    (h : q.submitCloseLeg id i now = .ok q') (ho : o ∈ q.pending) : o ∈ q'.pending := by
  obtain ⟨pos, _, h⟩ := Run.bind_eq_ok.mp h
  split at h
  · cases h
  · split_ifs at h with hst
    · cases h
      exact ho
    · cases h
      exact List.mem_append_left _ ho

omit [Double F] in
/-- Closing a position keeps the orders of the others. -/
theorem submitClose_keeps {q q' : Portfolio F} {id : PositionId} {now : Timestamp} {o : PendingOrder}
    (h : q.submitClose id now = .ok q') (hne : o.position ≠ id) (ho : o ∈ q.pending) : o ∈ q'.pending := by
  obtain ⟨pos, _, h⟩ := Run.bind_eq_ok.mp h
  have hcancel := Run.foldl_inv_rest (f := cancelOpening id) (fun rest r => o ∈ r.pending ∨ o ∈ rest) q.pending
    ?_ (s := { q with pending := [] }) (.inr ho)
  · refine Run.foldlM_inv (fun r => o ∈ r.pending) (fun r j r' hr hstep => ?_) _ _ q' (by simpa using hcancel) h
    unfold closeIfOpen at hstep
    split at hstep
    · split at hstep
      · exact submitCloseLeg_keeps hstep hr
      · cases hstep
        exact hr
    · cases hstep
      exact hr
  · rintro r o' rest (hr | hrest)
    · left
      unfold cancelOpening
      split_ifs
      · exact hr
      · exact List.mem_append_left _ hr
    · rcases List.mem_cons.mp hrest with rfl | hrest
      · left
        rw [cancelOpening, if_neg (fun hcancelled => hne hcancelled.1)]
        exact List.mem_append_right _ (List.mem_singleton.mpr rfl)
      · exact .inr hrest

theorem processRule_keeps {q q' : Portfolio F} {market : MarketView} {k i : Nat} {leg : Leg} {o : PendingOrder}
    (hleg : q.leg? o.position i = some leg) (hst : leg.state = .PendingOpen) (ho : o ∈ q.pending)
    (hstep : processRule market q k = .ok q') : o ∈ q'.pending := by
  obtain rfl | ⟨rule, pos, _, _, hpos, ⟨rfl, _⟩ | ⟨_, hest, hfire⟩⟩ := processRule_cases hstep
  · exact ho
  · exact ho
  · obtain ⟨q₁, hclose, rfl⟩ := fireRule_eq_ok.mp hfire
    have hstart : o ∈ (q.startRule k).pending := ho
    show o ∈ q₁.pending
    unfold closeScope at hclose
    cases hscope : rule.leg with
    | some j =>
        rw [hscope] at hclose
        exact submitCloseLeg_keeps hclose hstart
    | none =>
        rw [hscope] at hclose
        refine submitClose_keeps hclose ?_ hstart
        intro hposition
        rw [hposition] at hleg
        exact not_pendingOpen_of_established hpos (hest hscope) hleg hst

/-- **A waiting leg and its opening order** are left as they are. -/
theorem processRiskRules_keeps {p p' : Portfolio F} {market : MarketView} {i : Nat} {leg : Leg} {o : PendingOrder}
    (hleg : p.leg? o.position i = some leg) (hst : leg.state = .PendingOpen) (ho : o ∈ p.pending)
    (h : p.processRiskRules market = .ok p') : p'.leg? o.position i = some leg ∧ o ∈ p'.pending :=
  Run.foldlM_inv (fun q => q.leg? o.position i = some leg ∧ o ∈ q.pending)
    (fun _ _ _ hq hstep => ⟨processRule_waiting hq.1 hst hstep, processRule_keeps hq.1 hst hq.2 hstep⟩) _ _ _ ⟨hleg, ho⟩ h

/-- After the rules a waiting leg is what it was, and the order that opens it the only one queued for it. -/
theorem processRiskRules_keepsWaiting {p p' : Portfolio F} {market : MarketView} (hmat : Matched noneExpired p)
    (hmat' : Matched noneExpired p') (h : p.processRiskRules market = .ok p') {id : PositionId} {i : Nat} {leg : Leg}
    (hleg : p.leg? id i = some leg) (hst : leg.state = .PendingOpen) :
    p'.leg? id i = some leg ∧ ∃ o, o.closing = false ∧ p.ordersFor id i = [o] ∧ p'.ordersFor id i = [o] := by
  have hslot := hmat id i
  rw [hleg] at hslot
  simp only [SlotMatched, LegMatched, hst] at hslot
  obtain ⟨o, horders, hopens⟩ := hslot
  obtain ⟨hpend, rfl, rfl⟩ := mem_ordersFor.mp (show o ∈ p.ordersFor id i by simp [horders])
  obtain ⟨hleg', hpend'⟩ := processRiskRules_keeps hleg hst hpend h
  exact ⟨hleg', o, hopens.opening, horders, (hmat'.opening hpend' hopens.opening).choose_spec.2.1⟩

/-! ## The loop -/

/-- **A due exit spends its position**, wherever in the loop its turn comes. -/
theorem processRiskRules_spends {p p' : Portfolio F} {market : MarketView} {k : Nat} {rule : RiskRule F}
    (hmat : Matched noneExpired p) (hcov : Covered p) (hrule : p.rules[k]? = some rule)
    (harmed : rule.fired = false) (hkind : rule.kind = .ExitAt) (hscope : rule.leg = none)
    (hdue : rule.deadline ≤ market.now)
    (hnone : ∀ i leg, p.leg? rule.position i = some leg → leg.state ≠ .PendingOpen)
    (h : p.processRiskRules market = .ok p') : SpentScope rule p' := by
  have hk : k < p.rules.length := (List.getElem?_eq_some_iff.mp hrule).1
  have hknown : rule.position < (p.quietScope market.now).known := hcov.known rule (List.mem_of_getElem? hrule)
  -- until its turn the rule stands as it was; from then on the position is spent
  have hloop := Run.foldlM_inv_rest
    (I := fun rest q => (Matched noneExpired q ∧ Covered q ∧ Moves (p.quietScope market.now) p q) ∧
      (SpentScope rule q ∨ k ∈ rest ∧ q.rules[k]? = some rule))
    ?_ ⟨⟨hmat, hcov, .refl⟩, .inr ⟨List.mem_range.mpr hk, hrule⟩⟩ h
  · exact hloop.2.resolve_right (fun hno => by simp at hno)
  · rintro q j rest q' ⟨⟨hqmat, hqcov, hq⟩, hturn⟩ hstep
    have hmoves : Moves (p.quietScope market.now) q q' := processRule_quiet hstep
    refine ⟨⟨hqmat.moves hmoves, processRule_covered hqcov hqmat hstep, hq.trans hmoves⟩, ?_⟩
    obtain hspent | ⟨hmem, hstands⟩ := hturn
    · exact .inl (hspent.moves (fun hno => hno) hknown hqmat hmoves)
    · by_cases hjk : j = k
      · subst hjk
        refine .inl (dueExit_spends hqmat hqcov hstands harmed hkind hscope hdue ?_ hstep)
        exact fun i => hq.slot_inv _ (fun _ _ => LegStep.not_pendingOpen) hmat hknown (hnone i)
      · obtain rfl | hmem := List.mem_cons.mp hmem
        · exact absurd rfl hjk
        · exact .inr ⟨hmem, (processRule_other hjk hstep).trans hstands⟩

/-! ## Main result -/

/-- What a timed exit is to have done: every leg the position held is on its way out, none is held without an
    exit, and none is still to be opened. -/
structure Exited (p p' : Portfolio F) (id : PositionId) : Prop where
  exiting : ∀ i leg, p.leg? id i = some leg → leg.state = .Open →
    ∃ leg' o, p'.leg? id i = some leg' ∧ leg'.state = .PendingClose ∧ o ∈ p'.ordersFor id i ∧ o.closing = true
  none_open : ∀ i leg, p'.leg? id i = some leg → leg.state ≠ .Open
  none_opening : ∀ o ∈ p'.pending, o.position = id → o.closing = true

/-- **A timed exit acts on what is held** exactly when no leg of the position is still waiting to open. A leg that is
    stays as it is, and so does its opening order, the only one queued for it. -/
theorem timed_exits_act_iff {fills : FillModel F} {delay : Int} {costs : CostPolicy} {p : Portfolio F}
    (h : Reachable fills delay costs p) {k : Nat} {rule : RiskRule F} (hrule : p.rules[k]? = some rule)
    (hkind : rule.kind = .ExitAt) (hscope : rule.leg = none) (harmed : rule.fired = false)
    {market : MarketView} (hdue : rule.deadline ≤ market.now) :
    ∃ p', p.processRiskRules market = .ok p' ∧
      (Exited p p' rule.position ↔
        ∀ i leg, p.leg? rule.position i = some leg → leg.state ≠ .PendingOpen) ∧
      ∀ i leg, p.leg? rule.position i = some leg → leg.state = .PendingOpen →
        p'.leg? rule.position i = some leg ∧
        ∃ o, o.closing = false ∧ p.ordersFor rule.position i = [o] ∧ p'.ordersFor rule.position i = [o] := by
  have hmat := h.matched
  have hcov := h.covered
  obtain ⟨p', hp'⟩ := processRiskRules_total hcov hmat market
  have hmoves : Moves (p.quietScope market.now) p p' := processRiskRules_moves (fun hno => hno) rfl hp'
  have hmat' : Matched noneExpired p' := hmat.moves hmoves
  refine ⟨p', hp', ⟨fun hexit i leg hleg hst => ?_, fun hnone => ?_⟩,
    fun _ _ hleg hst => processRiskRules_keepsWaiting hmat hmat' hp' hleg hst⟩
  · -- a leg still waiting keeps its opening order
    obtain ⟨_, o, hopening, _, horders⟩ := processRiskRules_keepsWaiting hmat hmat' hp' hleg hst
    obtain ⟨hpend, hposn, _⟩ := mem_ordersFor.mp (show o ∈ p'.ordersFor rule.position i by simp [horders])
    have hclosing := hexit.none_opening o hpend hposn
    rw [hopening] at hclosing
    cases hclosing
  · -- every leg is spent, so what was open has its exit queued
    have hspent : SpentScope rule p' :=
      processRiskRules_spends hmat hcov hrule harmed hkind hscope hdue hnone hp'
    have hscoped : ∀ i, InScope rule i := fun i j hj => by rw [hscope] at hj; cases hj
    refine ⟨fun i leg hleg hopen => ?_, fun i leg hleg hopen => ?_, fun o ho hposn => ?_⟩
    · obtain ⟨leg', hleg', hlive⟩ := hmoves.stays_live (by
          rintro _ ⟨_, hno⟩
          cases hno) (fun _ hno => hno) hmat hleg (by simp [Leg.live, hopen])
      have hst := hspent i leg' (hscoped i) hleg'
      have hclosing : leg'.state = .PendingClose := by
        cases hst' : leg'.state <;>
          simp [Leg.live, LegState.spent, LegState.terminal, hst'] at hlive hst ⊢
      have hslot := hmat' rule.position i
      rw [hleg'] at hslot
      simp only [SlotMatched, LegMatched, hclosing] at hslot
      obtain ⟨o, horders, hcloses⟩ := hslot
      exact ⟨leg', o, hleg', hclosing, by simp [horders], hcloses.closing⟩
    · have hst := hspent i leg (hscoped i) hleg
      simp [LegState.spent, LegState.terminal, hopen] at hst
    · cases hclosing : o.closing with
      | true => rfl
      | false =>
          obtain ⟨leg, hleg, _, hst, _⟩ := hmat'.opening ho hclosing
          rw [hposn] at hleg
          have hsp := hspent _ leg (hscoped _) hleg
          simp [LegState.spent, LegState.terminal, hst] at hsp

/-- A bought leg with a timed exit that is due. -/
def dueExitOps : List (Op ℚ) :=
  [.submitOpen "long" [0] .Buy 2 5, .processPending quotedMarket, .attachExitAt 0 none 7]

/-- Two legs are bought, one of which is never quoted, with a timed exit that is due. -/
def halfFilledOps : List (Op ℚ) :=
  [.submitOpen "spread" [0, 1] .Buy 2 5, .processPending quotedMarket, .attachExitAt 0 none 7]

/-- The exit of the one acts; of the other the leg that waits and its order stay. -/
theorem timed_exits_act_iff_bought :
    (∃ p p' : Portfolio ℚ, dueExitOps.foldlM apply (empty crossSpreadFill 1 noCosts) = .ok p ∧
      p.processRiskRules quotedMarket = .ok p' ∧ Exited p p' 0) ∧
    ∃ (p p' : Portfolio ℚ) (leg : Leg) (o : PendingOrder),
      halfFilledOps.foldlM apply (empty crossSpreadFill 1 noCosts) = .ok p ∧ p.leg? 0 1 = some leg ∧
      p.processRiskRules quotedMarket = .ok p' ∧ p'.leg? 0 1 = some leg ∧ o.closing = false ∧
      p'.ordersFor 0 1 = [o] := by
  have hdue : (7 : Timestamp) ≤ quotedMarket.now := by decide
  constructor
  · have hrun : dueExitOps.foldlM apply (empty crossSpreadFill 1 noCosts) = .ok _ := rfl
    obtain ⟨p', hp', hiff, _⟩ := timed_exits_act_iff (.of_run .init hrun) (k := 0) rfl rfl rfl rfl hdue
    refine ⟨_, p', rfl, hp', hiff.mpr ?_⟩
    intro i leg hleg
    match i with
    | 0 =>
        cases hleg
        nofun
    | i + 1 => cases hleg
  · have hrun : halfFilledOps.foldlM apply (empty crossSpreadFill 1 noCosts) = .ok _ := rfl
    obtain ⟨p', hp', _, hwaiting⟩ := timed_exits_act_iff (.of_run .init hrun) (k := 0) rfl rfl rfl rfl hdue
    obtain ⟨hleg, o, hopening, _, horders⟩ := hwaiting 1 _ rfl rfl
    exact ⟨_, p', _, o, rfl, rfl, hp', hleg, hopening, horders⟩

/-- The leg that filled stays held past the deadline: the position is not established. -/
theorem half_filled_position_outlives_exit :
    ∃ (p p' : Portfolio ℚ) (rule : RiskRule ℚ) (leg : Leg),
      halfFilledOps.foldlM apply (empty crossSpreadFill 1 noCosts) = .ok p ∧
      p.rules[0]? = some rule ∧ rule.kind = .ExitAt ∧ rule.leg = none ∧ rule.fired = false ∧
      rule.deadline ≤ quotedMarket.now ∧ p.leg? rule.position 0 = some leg ∧ leg.state = .Open ∧
      p.processRiskRules quotedMarket = .ok p' ∧ ¬ Exited p p' rule.position := by
  refine ⟨_, _, _, _, rfl, rfl, rfl, rfl, rfl, by decide, rfl, rfl, rfl, fun hexit => ?_⟩
  exact hexit.none_open 0 _ rfl rfl

end Portfolio

end Volforge
