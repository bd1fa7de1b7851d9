import Volforge.Core.Correctness.Lifecycle

/-!
# `Core.Correctness.Closings` — how often a leg is closed, and what is still held

The journal says which executions closed a leg and which legs were settled in cash. `ClosedOnce` counts both
for each slot: one closing for a closed leg, none for any other. `HeldFrom` goes the other way: without a market, what is held
afterwards was held before.
-/

namespace Volforge

variable {F : Type}

namespace Portfolio

/-! ## Counting closings -/

/-- The execution closed the leg of this slot. -/
def closes (id : PositionId) (i : Nat) (f : Fill) : Bool :=
  f.order.closing && (f.order.position = id && f.order.legIndex = i)

/-- How often the leg of a slot was closed, by an execution or by settlement. -/
def closings (p : Portfolio F) (id : PositionId) (i : Nat) : Nat :=
  p.journal.fills.countP (closes id i) + p.journal.settled.count (id, i)

/-- One for a closed leg. -/
def closedCount : Option Leg → Nat
  | some leg => if leg.state = .Closed then 1 else 0
  | none => 0

/-- **Each leg is closed at most once**: once when it is closed, and not before. -/
def ClosedOnce (p : Portfolio F) : Prop := ∀ id i, p.closings id i = closedCount (p.leg? id i)

theorem closedCount_le_one (leg : Option Leg) : closedCount leg ≤ 1 := by
  unfold closedCount
  split
  · split_ifs <;> omega
  · omega

theorem closedCount_eq_zero {leg : Leg} (h : leg.state ≠ .Closed) : closedCount (some leg) = 0 := by
  simp [closedCount, h]

theorem closedCount_eq_one {leg : Leg} (h : leg.state = .Closed) : closedCount (some leg) = 1 := by
  simp [closedCount, h]

/-- A write that closes nothing and a journal that stays keep the count. -/
theorem ClosedOnce.congr {p q : Portfolio F} (h : ClosedOnce p) (hfills : q.journal.fills = p.journal.fills)
    (hsettled : q.journal.settled = p.journal.settled)
    (hlegs : ∀ id i, closedCount (q.leg? id i) = closedCount (p.leg? id i)) : ClosedOnce q := by
  intro id i
  rw [closings, hfills, hsettled, hlegs]
  exact h id i

/-- The count of a slot in which a leg that is not closed changes its state, but not to `Closed`. -/
theorem closedCount_setState {p : Portfolio F} {id : PositionId} {i : Nat} {leg : Leg} {st : LegState}
    (hleg : p.leg? id i = some leg) (hfrom : leg.state ≠ .Closed) (hto : st ≠ .Closed) (id' : PositionId)
    (i' : Nat) : closedCount ((p.setState id i st).leg? id' i') = closedCount (p.leg? id' i') := by
  rw [leg?_setState]
  by_cases hs : id' = id ∧ i' = i
  · obtain ⟨rfl, rfl⟩ := hs
    rw [if_pos ⟨rfl, rfl⟩, hleg, Option.map_some, closedCount_eq_zero hfrom]
    exact closedCount_eq_zero hto
  · rw [if_neg hs]

variable [Double F]

theorem ClosedOnce.fills {p : Portfolio F} (h : ClosedOnce p) {spec : InstrumentSpec} {o : PendingOrder}
    {q : Quote} {price : Price} {now : Timestamp} {leg : Leg}
    (hleg : p.leg? o.position o.legIndex = some leg) (hopen : leg.state ≠ .Closed) :
    ClosedOnce (p.fillOrder spec o q price now) := by
  intro id i
  have hcount := h id i
  have hleg' := leg?_fillOrder p spec o q price now id i
  simp only [closings] at hcount
  simp only [closings, fillOrder_journal, List.countP_append, List.countP_singleton]
  by_cases hs : id = o.position ∧ i = o.legIndex
  · obtain ⟨rfl, rfl⟩ := hs
    rw [if_pos ⟨rfl, rfl⟩, hleg, Option.map_some] at hleg'
    rw [hleg, closedCount_eq_zero hopen] at hcount
    rw [hleg']
    cases hcl : o.closing with
    | true =>
        rw [closedCount_eq_one (by simp [executed, hcl]), if_pos (by simp [closes, hcl])]
        omega
    | false =>
        rw [closedCount_eq_zero (by simp [executed, hcl]), if_neg (by simp [closes, hcl])]
        omega
  · have hs' : ¬ (o.position = id ∧ o.legIndex = i) := fun hs' => hs ⟨hs'.1.symm, hs'.2.symm⟩
    rw [if_neg hs] at hleg'
    rw [hleg', if_neg (by simp [closes, hs'])]
    omega

theorem ClosedOnce.settles {p : Portfolio F} (h : ClosedOnce p) {id : PositionId} {i : Nat} {leg : Leg}
    {spec : InstrumentSpec} {level : F} {now : Timestamp} (hleg : p.leg? id i = some leg)
    (hlive : leg.live = true) : ClosedOnce (p.settleLeg id i leg spec level now) := by
  intro id' i'
  have hcount := h id' i'
  have hleg' := leg?_settleLeg p id i leg spec level now id' i'
  have hopen : leg.state ≠ .Closed := by
    intro hst
    simp [Leg.live, hst] at hlive
  have hsettled : (p.settleLeg id i leg spec level now).journal.settled = p.journal.settled ++ [(id, i)] := rfl
  have hfills : (p.settleLeg id i leg spec level now).journal.fills = p.journal.fills := rfl
  simp only [closings] at hcount
  rw [closings, hsettled, hfills, List.count_append, List.count_singleton]
  by_cases hs : id' = id ∧ i' = i
  · obtain ⟨rfl, rfl⟩ := hs
    rw [if_pos ⟨rfl, rfl⟩, hleg, Option.map_some] at hleg'
    rw [hleg, closedCount_eq_zero hopen] at hcount
    rw [hleg', closedCount_eq_one rfl, if_pos (by simp)]
    omega
  · have hs' : ¬ (id = id' ∧ i = i') := fun hs' => hs ⟨hs'.1.symm, hs'.2.symm⟩
    rw [if_neg hs] at hleg'
    rw [hleg', if_neg (by simpa using hs')]
    omega

theorem ClosedOnce.move {c : Scope} {p p' : Portfolio F} (h : ClosedOnce p) (hmat : Matched c.expired p)
    (hm : Move c p p') : ClosedOnce p' := by
  cases hm with
  | position label => exact h.congr rfl rfl (fun id i => by rw [leg?_addPosition])
  | @opens id side qty inst _ hid _ =>
      have hpos : p.positions[id]? = some p.positions[id] := List.getElem?_eq_getElem hid
      refine h.congr rfl rfl (fun id' i' => ?_)
      rw [leg?_openLeg side qty c.now inst hpos]
      by_cases hs : id' = id ∧ i' = p.positions[id].legs.length
      · obtain ⟨rfl, rfl⟩ := hs
        rw [if_pos ⟨rfl, rfl⟩, leg?_of_position hpos, List.getElem?_eq_none (Nat.le_refl _)]
        rfl
      · rw [if_neg hs]
  | exits hleg hopen =>
      refine h.congr rfl rfl (fun id' i' => ?_)
      have hto : LegState.PendingClose ≠ .Closed := nofun
      exact closedCount_setState hleg (by simp [hopen]) hto id' i'
  | @fills before after o q price spec hidle hpend _ _ _ =>
      have ho : o ∈ p.pending := by simp [hpend]
      have hstart : ClosedOnce (p.withPending (before ++ after)) := h
      -- the leg of a queued order waits for it, so it is not closed yet
      cases hcl : o.closing with
      | true =>
          obtain ⟨leg, hleg, _, hst, _⟩ := hmat.closing hidle ho hcl
          exact hstart.fills hleg (by simp [hst])
      | false =>
          obtain ⟨leg, hleg, _, hst, _⟩ := hmat.opening ho hcl
          exact hstart.fills hleg (by simp [hst])
  | @withdraws before after o hpend hopening =>
      obtain ⟨leg, hleg, _, hst, _⟩ := hmat.opening (o := o) (by simp [hpend]) hopening
      refine h.congr rfl rfl (fun id' i' => ?_)
      have hto : LegState.Cancelled ≠ .Closed := nofun
      exact closedCount_setState (p := p.withPending (before ++ after)) hleg (by simp [hst]) hto id' i'
  | @abandons before after o hidle _ hpend hclosing =>
      obtain ⟨leg, hleg, _, hst, _⟩ := hmat.closing hidle (o := o) (by simp [hpend]) hclosing
      refine h.congr rfl rfl (fun id' i' => ?_)
      have hto : LegState.Open ≠ .Closed := nofun
      exact closedCount_setState (p := p.withPending (before ++ after)) hleg (by simp [hst]) hto id' i'
  | settles hleg hlive _ => exact h.settles hleg hlive
  | drops => exact h.congr rfl rfl (fun _ _ => rfl)
  | marks f hf =>
      refine h.congr rfl rfl (fun id i => ?_)
      rw [leg?_marks]
      cases p.leg? id i with
      | none => rfl
      | some leg =>
          obtain ⟨m, t, heq⟩ := hf leg
          rw [Option.map_some, heq]
          rfl
  | rules => exact h.congr rfl rfl (fun _ _ => rfl)

theorem ClosedOnce.moves {c : Scope} {p p' : Portfolio F} (h : ClosedOnce p) (hmat : Matched c.expired p)
    (hm : Moves c p p') : ClosedOnce p' :=
  (hm.inv (fun q => Matched c.expired q ∧ ClosedOnce q)
    (fun _ _ hq hmove => ⟨hq.1.move hmove, hq.2.move hq.1 hmove⟩) ⟨hmat, h⟩).2

theorem Reachable.closedOnce {fills : FillModel F} {delay : Int} {costs : CostPolicy} {p : Portfolio F}
    (h : Reachable fills delay costs p) : ClosedOnce p := by
  refine (h.inv (fun q => Matched noneExpired q ∧ ClosedOnce q) ⟨matched_empty fills delay costs, ?_⟩ ?_).2
  · intro id i
    rfl
  · rintro q op q' ⟨hmat, hq⟩ hop
    obtain ⟨hm, hmat'⟩ := apply_moves hmat hop
    exact ⟨hmat', hq.moves hmat.mono hm⟩

/-! ## What is still held -/

/-- Every leg held in `q` was held in `p`. -/
def HeldFrom (p q : Portfolio F) : Prop :=
  ∀ id i leg', q.leg? id i = some leg' → leg'.live = true →
    ∃ leg, p.leg? id i = some leg ∧ leg.live = true ∧ leg.instrument = leg'.instrument

omit [Double F] in
theorem HeldFrom.refl (p : Portfolio F) : HeldFrom p p := fun _ _ leg hleg hlive => ⟨leg, hleg, hlive, rfl⟩

omit [Double F] in
theorem HeldFrom.trans {p q r : Portfolio F} (h : HeldFrom p q) (h' : HeldFrom q r) : HeldFrom p r := by
  intro id i leg'' hleg'' hlive''
  obtain ⟨leg', hleg', hlive', hinst'⟩ := h' id i leg'' hleg'' hlive''
  obtain ⟨leg, hleg, hlive, hinst⟩ := h id i leg' hleg' hlive'
  exact ⟨leg, hleg, hlive, hinst.trans hinst'⟩

/-- A leg that is held now was held before, or there was a market to trade its instrument in. -/
theorem Moves.held_or_traded {c : Scope} {p p' : Portfolio F} (hmat : Matched c.expired p)
    (hm : Moves c p p') {id : PositionId} {i : Nat} {leg' : Leg} (hleg' : p'.leg? id i = some leg')
    (hlive' : leg'.live = true) :
    (∃ leg, p.leg? id i = some leg ∧ leg.live = true ∧ leg.instrument = leg'.instrument) ∨
      c.traded leg'.instrument := by
  have hinv := hm.inv (fun q => Matched c.expired q ∧ ∀ l', q.leg? id i = some l' → l'.live = true →
    (∃ leg, p.leg? id i = some leg ∧ leg.live = true ∧ leg.instrument = l'.instrument) ∨
      c.traded l'.instrument) ?_ ⟨hmat, fun l' hl' hl => .inl ⟨l', hl', hl, rfl⟩⟩
  · exact hinv.2 leg' hleg' hlive'
  · rintro q q' ⟨hqmat, hq⟩ hmove
    refine ⟨hqmat.move hmove, fun l' hl' hlive => ?_⟩
    cases hl : q.leg? id i with
    | none =>
        -- a leg that was not there waits for its opening order
        have hst := (hmove.leg_new hl hl').2.1
        simp [Leg.live, hst] at hlive
    | some l =>
        obtain ⟨l'', hl'', hstep⟩ := hmove.leg_step hqmat hl
        rw [hl'] at hl''
        cases hl''
        by_cases htraded : c.traded l.instrument
        · rw [hstep.instrument]
          exact .inr htraded
        · rw [hstep.instrument]
          exact hq l hl (hstep.next.live htraded hlive)

theorem Moves.heldFrom {c : Scope} {p p' : Portfolio F} (hquiet : ∀ id, ¬ c.traded id)
    (hmat : Matched c.expired p) (hm : Moves c p p') : HeldFrom p p' := fun _ _ _ hleg' hlive' =>
  (hm.held_or_traded hmat hleg' hlive').resolve_right (hquiet _)

end Portfolio

end Volforge
