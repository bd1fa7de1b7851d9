import Volforge.Core.Correctness.Books

/-!
# `Core.Correctness.Mirrors` — the share of one position

All positions share one queue, one list of rules, one trade log and one from-rule flag. `Mirrors k p q` says
that `q` is what is left of `p` when everything that belongs to other positions is taken away and position `k`
is renumbered to `0`; counters and history variables are not compared. Each operation is run on both sides,
or, when it is addressed to another position, on `p` only. `OrderFrame` is what the operations leave alone.

## Contents
- **Shares.** What of an order, a rule and a trade belongs to a position.
- **Mirrors.** The relation, and its lemmas for each small write.
- **Operations.** One lemma for each, over its loops; the loop over the rules is in `Isolation`.
-/

namespace Volforge

variable {F : Type}

/-! ## Shares

Orders, rules and trades carry the number of their position. The serial numbers of orders count over all
positions, so they are taken away before two orders are compared. -/

/-- The order without its serial number, if it belongs to position `k`, which is renumbered. -/
def PendingOrder.share (k : PositionId) (o : PendingOrder) : Option PendingOrder :=
  if o.position = k then some { o with position := 0, serial := 0 } else none

/-- The rule, if it watches position `k`, which is renumbered. -/
def RiskRule.share (k : PositionId) (r : RiskRule F) : Option (RiskRule F) :=
  if r.position = k then some { r with position := 0 } else none

/-- The trade, if it was made for position `k`, which is renumbered. -/
def TradeRecord.share (k : PositionId) (t : TradeRecord) : Option TradeRecord :=
  if t.position = k then some { t with position := 0 } else none

/-- The order without its serial number. -/
def PendingOrder.unnumbered (o : PendingOrder) : PendingOrder := { o with serial := 0 }

/-- What an order with a share is, field by field. -/
theorem PendingOrder.share_eq_some {k : PositionId} {o o' : PendingOrder}
    (h : o.share k = some o'.unnumbered) : o.position = k ∧ o' = { o with position := 0, serial := o'.serial } := by
  unfold PendingOrder.share at h
  split at h
  · next hk =>
      refine ⟨hk, ?_⟩
      cases o
      cases o'
      simp only [PendingOrder.unnumbered, Option.some.injEq, PendingOrder.mk.injEq] at h ⊢
      obtain ⟨rfl, rfl, rfl, rfl, rfl, rfl, rfl, rfl, rfl, _⟩ := h
      simp
  · cases h

/-- An order without a share belongs to another position. -/
theorem PendingOrder.share_eq_none {k : PositionId} {o : PendingOrder} (h : o.share k = none) :
    o.position ≠ k := by
  unfold PendingOrder.share at h
  split at h
  · cases h
  · next hk => exact hk

namespace Portfolio

/-! ## Mirrors

For each small write there are two lemmas: one for a write to position `k`, made on both sides, and one,
ending in `_other`, for a write to another position, which `q` does not see. -/

/-- `q` is the share of position `k` of `p`. -/
structure Mirrors (k : PositionId) (p q : Portfolio F) : Prop where
  fills : q.fills = p.fills
  delay : q.delay = p.delay
  costPolicy : q.costPolicy = p.costPolicy
  /-- Positions are numbered by their place. -/
  ids : ∀ (id : PositionId) (pos : Position), p.positions[id]? = some pos → pos.id = id
  ids' : ∀ (id : PositionId) (pos : Position), q.positions[id]? = some pos → pos.id = id
  single : q.positions.length ≤ 1
  legs : (p.positions[k]?).map (·.legs) = (q.positions[0]?).map (·.legs)
  pending : p.pending.filterMap (·.share k) = q.pending.map (·.unnumbered)
  rules : p.rules.filterMap (·.share k) = q.rules
  trades : p.trades.filterMap (·.share k) = q.trades

variable {k : PositionId} {p q : Portfolio F}

/-- The two portfolios hold the same legs. -/
theorem Mirrors.leg? (h : Mirrors k p q) (i : Nat) : p.leg? k i = q.leg? 0 i := by
  have hbind : ∀ x : Option Position,
      x.bind (fun pos => pos.legs[i]?) = (x.map (·.legs)).bind (fun legs => legs[i]?) := by
    intro x
    cases x <;> rfl
  unfold Portfolio.leg?
  rw [hbind, hbind, h.legs]

/-- Changing legs leaves the positions numbered by their place. -/
theorem modify_ids {positions : List Position} (id : PositionId) (g : List Leg → List Leg)
    (h : ∀ (id : PositionId) (pos : Position), positions[id]? = some pos → pos.id = id) :
    ∀ (id' : PositionId) (pos : Position),
      (positions.modify id (fun pos => { pos with legs := g pos.legs }))[id']? = some pos → pos.id = id' := by
  intro id' pos hpos
  simp only [List.getElem?_modify] at hpos
  obtain ⟨pos', hpos', rfl⟩ := Option.map_eq_some_iff.mp hpos
  rw [← h id' pos' hpos']
  split_ifs <;> rfl

/-- The legs of the position are changed on both sides. -/
theorem Mirrors.modify (h : Mirrors k p q) (g : List Leg → List Leg) :
    Mirrors k { p with positions := p.positions.modify k (fun pos => { pos with legs := g pos.legs }) }
      { q with positions := q.positions.modify 0 (fun pos => { pos with legs := g pos.legs }) } :=
  { h with
    ids := modify_ids k g h.ids
    ids' := modify_ids 0 g h.ids'
    single := by simpa using h.single
    legs := by
      simp only [List.getElem?_modify_eq, Option.map_eq_map, Option.map_map]
      have hmap : ∀ x : Option Position,
          x.map ((·.legs) ∘ fun pos => { pos with legs := g pos.legs }) = (x.map (·.legs)).map g := by
        intro x
        cases x <;> rfl
      rw [hmap, hmap, h.legs] }

/-- The legs of another position are changed. -/
theorem Mirrors.modify_other (h : Mirrors k p q) {id : PositionId} (hid : id ≠ k) (g : List Leg → List Leg) :
    Mirrors k { p with positions := p.positions.modify id (fun pos => { pos with legs := g pos.legs }) } q :=
  { h with
    ids := modify_ids id g h.ids
    legs := by
      rw [← h.legs]
      simp only [List.getElem?_modify_ne _ _ hid] }

/-- One leg of the position is changed on both sides. -/
theorem Mirrors.modifyLeg (h : Mirrors k p q) (i : Nat) (f : Leg → Leg) :
    Mirrors k (p.modifyLeg k i f) (q.modifyLeg 0 i f) := h.modify (·.modify i f)

theorem Mirrors.modifyLeg_other (h : Mirrors k p q) {id : PositionId} (hid : id ≠ k) (i : Nat) (f : Leg → Leg) :
    Mirrors k (p.modifyLeg id i f) q := h.modify_other hid (·.modify i f)

/-- An order of the position is queued on both sides; the flag it is marked with has to agree. -/
theorem Mirrors.submit (h : Mirrors k p q) (hflag : p.closingFromRule = q.closingFromRule) {o o' : PendingOrder}
    (ho : o.position = k) (ho' : o' = { o with position := 0 }) : Mirrors k (p.submit o) (q.submit o') :=
  { h with
    pending := by
      subst ho'
      show (p.pending ++ [_]).filterMap _ = (q.pending ++ [_]).map _
      rw [List.filterMap_append, List.map_append, h.pending]
      simp [PendingOrder.share, PendingOrder.unnumbered, ho, hflag] }

/-- An order of another position is queued. -/
theorem Mirrors.submit_other (h : Mirrors k p q) {o : PendingOrder} (ho : o.position ≠ k) :
    Mirrors k (p.submit o) q :=
  { h with
    pending := by
      show (p.pending ++ [_]).filterMap _ = _
      rw [List.filterMap_append, h.pending]
      simp [PendingOrder.share, ho] }

/-- A pass over the queue keeps an order of the position on both sides. -/
theorem Mirrors.keep (h : Mirrors k p q) {o o' : PendingOrder} (ho : o.share k = some o'.unnumbered) :
    Mirrors k (p.keep o) (q.keep o') :=
  { h with
    pending := by
      show (p.pending ++ [_]).filterMap _ = (q.pending ++ [_]).map _
      rw [List.filterMap_append, List.map_append, h.pending]
      simp [ho] }

theorem Mirrors.keep_other (h : Mirrors k p q) {o : PendingOrder} (ho : o.share k = none) :
    Mirrors k (p.keep o) q :=
  { h with
    pending := by
      show (p.pending ++ [_]).filterMap _ = _
      rw [List.filterMap_append, h.pending]
      simp [ho] }

theorem Mirrors.countCancelled (h : Mirrors k p q) (o o' : PendingOrder) :
    Mirrors k (p.countCancelled o) (q.countCancelled o') := { h with }

theorem Mirrors.countCancelled_other (h : Mirrors k p q) (o : PendingOrder) :
    Mirrors k (p.countCancelled o) q := { h with }

/-- A loop over the queue starts with an empty one. -/
theorem Mirrors.drained (h : Mirrors k p q) :
    Mirrors k { p with pending := [] } { q with pending := [] } := { h with pending := rfl }

/-! ## Operations

An operation that succeeds on `p` succeeds on `q`, which has fewer positions to fail on. The loops are run in
step by the rules of `Run` for two folds, one of which selects. -/

/-! ### Opening

Positions are numbered by their place, so opening position `k` adds the first one of `q`. -/

/-- A leg is opened in the position, at the same index on both sides. -/
theorem Mirrors.openLeg (h : Mirrors k p q) (hflag : p.closingFromRule = q.closingFromRule) (side : Side)
    (qty : Qty) (now : Timestamp) (inst : InstrumentId) :
    Mirrors k (openLeg k side qty now p inst) (openLeg 0 side qty now q inst) := by
  have hindex : ((p.positions[k]?).map (fun pos => pos.legs.length)).getD 0 =
      ((q.positions[0]?).map (fun pos => pos.legs.length)).getD 0 := by
    have hlen := congrArg (fun x : Option (List Leg) => (x.map List.length).getD 0) h.legs
    simpa [Option.map_map, Function.comp_def] using hlen
  unfold Portfolio.openLeg
  rw [hindex]
  refine (h.modify (· ++ [_])).submit hflag rfl ?_
  simp only [h.delay]

theorem Mirrors.openLeg_other (h : Mirrors k p q) {id : PositionId} (hid : id ≠ k) (side : Side) (qty : Qty)
    (now : Timestamp) (inst : InstrumentId) : Mirrors k (Portfolio.openLeg id side qty now p inst) q :=
  (h.modify_other hid (· ++ [_])).submit_other hid

/-- A new position is numbered by its place. -/
theorem append_ids {positions : List Position} (label : String)
    (h : ∀ (id : PositionId) (pos : Position), positions[id]? = some pos → pos.id = id) :
    ∀ (id : PositionId) (pos : Position),
      (positions ++ [{ id := positions.length, label := label }])[id]? = some pos → pos.id = id := by
  intro id pos hpos
  rw [List.getElem?_append] at hpos
  split_ifs at hpos with hlt
  · exact h id pos hpos
  · obtain ⟨hzero, rfl⟩ := List.getElem?_eq_some_iff.mp hpos
    simp only [List.length_singleton] at hzero
    simp only [List.getElem_singleton]
    lia

/-- A successful opening adds one position. -/
theorem submitOpen_length {label : String} {instruments : List InstrumentId} {side : Side} {qty : Qty}
    {now : Timestamp} {p' : Portfolio F} {id : PositionId}
    (h : p.submitOpen label instruments side qty now = .ok (p', id)) :
    p'.positions.length = p.positions.length + 1 := by
  unfold Portfolio.submitOpen at h
  obtain ⟨_, h⟩ := Run.guard_eq_ok.mp h
  obtain ⟨_, h⟩ := Run.guard_eq_ok.mp h
  cases h
  exact Run.foldl_inv (fun p' : Portfolio F => p'.positions.length = p.positions.length + 1) instruments
    (fun p' inst _ hlen => by rw [openLeg_length, hlen]) (by simp)

/-- The position that is opened is `k`. -/
theorem Mirrors.submitOpen (h : Mirrors k p q) (hflag : p.closingFromRule = q.closingFromRule)
    (hk : p.positions.length = k) {label : String} {instruments : List InstrumentId} {side : Side} {qty : Qty}
    {now : Timestamp} {p' : Portfolio F} {id : PositionId}
    (hop : p.submitOpen label instruments side qty now = .ok (p', id)) :
    ∃ q', q.submitOpen label instruments side qty now = .ok (q', 0) ∧ Mirrors k p' q' ∧
      p'.closingFromRule = p.closingFromRule ∧ q'.closingFromRule = q.closingFromRule := by
  subst hk
  have hnone : q.positions = [] := by
    have hlegs := h.legs
    rw [List.getElem?_eq_none (Nat.le_refl _)] at hlegs
    cases hq : q.positions with
    | nil => rfl
    | cons pos rest =>
        rw [hq] at hlegs
        cases hlegs
  have hzero : q.positions.length = 0 := by rw [hnone]; rfl
  have hadded : Mirrors p.positions.length
      { p with positions := p.positions ++ [{ id := p.positions.length, label := label }] }
      { q with positions := q.positions ++ [{ id := q.positions.length, label := label }] } :=
    { h with
      ids := append_ids label h.ids
      ids' := append_ids label h.ids'
      single := by simp [hnone]
      legs := by
        dsimp only
        rw [List.getElem?_concat_length, hnone]
        rfl }
  unfold Portfolio.submitOpen at hop ⊢
  obtain ⟨hlegs, hop⟩ := Run.guard_eq_ok.mp hop
  obtain ⟨hqty, hop⟩ := Run.guard_eq_ok.mp hop
  rw [if_neg hlegs, if_neg hqty]
  cases hop
  dsimp only
  rw [hzero] at hadded ⊢
  refine ⟨_, rfl, ?_⟩
  exact Run.foldl_sim_select
    (fun p' q' => Mirrors p.positions.length p' q' ∧ p'.closingFromRule = p.closingFromRule ∧
      q'.closingFromRule = q.closingFromRule)
    (fun inst : InstrumentId => some inst) (fun inst => inst)
    (by
      rintro p' q' inst inst' hinst ⟨hm, hp, hq⟩
      cases hinst
      exact ⟨hm.openLeg (by rw [hp, hq, hflag]) side qty now inst, hp, hq⟩)
    (fun _ _ _ hnot => by cases hnot) (by simp) ⟨hadded, rfl, rfl⟩

/-- The position that is opened is another one. -/
theorem Mirrors.submitOpen_other (h : Mirrors k p q) (hk : p.positions.length ≠ k) {label : String}
    {instruments : List InstrumentId} {side : Side} {qty : Qty} {now : Timestamp} {p' : Portfolio F}
    {id : PositionId} (hop : p.submitOpen label instruments side qty now = .ok (p', id)) :
    Mirrors k p' q ∧ p'.closingFromRule = p.closingFromRule := by
  unfold Portfolio.submitOpen at hop
  obtain ⟨_, hop⟩ := Run.guard_eq_ok.mp hop
  obtain ⟨_, hop⟩ := Run.guard_eq_ok.mp hop
  cases hop
  have hadded : Mirrors k
      { p with positions := p.positions ++ [{ id := p.positions.length, label := label }] } q :=
    { h with
      ids := append_ids label h.ids
      legs := by
        rw [← h.legs]
        dsimp only
        congr 1
        rw [List.getElem?_append]
        split_ifs with hlt
        · rfl
        · rw [List.getElem?_eq_none (not_lt.mp hlt), List.getElem?_eq_none]
          simp only [List.length_singleton]
          lia }
  exact Run.foldl_inv
    (fun p' => Mirrors k p' q ∧ p'.closingFromRule = p.closingFromRule) instruments
    (fun p' inst _ ⟨hm, hp⟩ => ⟨hm.openLeg_other hk side qty now inst, hp⟩) ⟨hadded, rfl⟩

/-! ### Closing

Closing a position rewrites the whole queue: orders of others are put back, in their order. -/

/-- Where `p` has the position, `q` has it as `0`, with the same legs. -/
theorem Mirrors.atId (h : Mirrors k p q) {pos : Position} (hpos : p.atId k = .ok pos) :
    ∃ pos', q.atId 0 = .ok pos' ∧ pos'.legs = pos.legs := by
  have hlegs := h.legs
  rw [atId_eq_ok.mp hpos] at hlegs
  obtain ⟨pos', hpos', heq⟩ := Option.map_eq_some_iff.mp hlegs.symm
  exact ⟨pos', atId_eq_ok.mpr hpos', heq⟩

/-- What orders, fills and settlement do not touch. -/
structure OrderFrame (p p' : Portfolio F) : Prop where
  flag : p'.closingFromRule = p.closingFromRule
  length : p'.positions.length = p.positions.length
  rules : p'.rules = p.rules

theorem OrderFrame.refl (p : Portfolio F) : OrderFrame p p := ⟨rfl, rfl, rfl⟩

theorem OrderFrame.trans {p₁ p₂ p₃ : Portfolio F} (h : OrderFrame p₁ p₂) (h' : OrderFrame p₂ p₃) :
    OrderFrame p₁ p₃ := ⟨h'.flag.trans h.flag, h'.length.trans h.length, h'.rules.trans h.rules⟩

/-- Closing a leg queues an order, and changes no rule. -/
theorem submitCloseLeg_frame {p p' : Portfolio F} {id : PositionId} {i : Nat} {now : Timestamp}
    (h : p.submitCloseLeg id i now = .ok p') : OrderFrame p p' := by
  obtain ⟨pos, _, h⟩ := Run.bind_eq_ok.mp h
  split at h
  · cases h
  · split at h
    · cases h
      exact ⟨rfl, rfl, rfl⟩
    · cases h
      exact ⟨rfl, by simp [Portfolio.submit, setState], rfl⟩

/-- A leg of the position is closed on both sides. -/
theorem Mirrors.submitCloseLeg (h : Mirrors k p q) (hflag : p.closingFromRule = q.closingFromRule) {i : Nat}
    {now : Timestamp} {p' : Portfolio F} (hop : p.submitCloseLeg k i now = .ok p') :
    ∃ q', q.submitCloseLeg 0 i now = .ok q' ∧ Mirrors k p' q' := by
  obtain ⟨pos, hpos, hop⟩ := Run.bind_eq_ok.mp hop
  obtain ⟨pos', hpos', heq⟩ := h.atId hpos
  cases hleg : pos.legs[i]? with
  | none =>
      rw [hleg] at hop
      cases hop
  | some leg =>
      rw [hleg] at hop
      have hleg' : pos'.legs[i]? = some leg := by rw [heq, hleg]
      unfold Portfolio.submitCloseLeg
      rw [hpos', Run.ok_bind, hleg']
      dsimp only at hop ⊢
      split_ifs at hop ⊢ with hstate
      · cases hop
        exact ⟨q, rfl, h⟩
      · cases hop
        exact ⟨_, rfl, (h.modifyLeg i _).submit hflag rfl (by simp [setState, Portfolio.modifyLeg, h.delay])⟩

theorem Mirrors.submitCloseLeg_other (h : Mirrors k p q) {id : PositionId} (hid : id ≠ k) {i : Nat}
    {now : Timestamp} {p' : Portfolio F} (hop : p.submitCloseLeg id i now = .ok p') : Mirrors k p' q := by
  obtain ⟨pos, _, hop⟩ := Run.bind_eq_ok.mp hop
  split at hop
  · cases hop
  · split at hop
    · cases hop
      exact h
    · cases hop
      exact (h.modifyLeg_other hid i _).submit_other hid

theorem cancelOpening_frame (id : PositionId) (p : Portfolio F) (o : PendingOrder) :
    OrderFrame p (cancelOpening id p o) := by
  unfold cancelOpening
  split_ifs
  · exact ⟨rfl, by simp [countCancelled, setState], rfl⟩
  · exact ⟨rfl, rfl, rfl⟩

/-- A close passes an order of the position: an opening is cancelled on both sides, an exit kept on both. -/
theorem Mirrors.cancelOpening (h : Mirrors k p q) {o o' : PendingOrder} (ho : o.share k = some o'.unnumbered) :
    Mirrors k (cancelOpening k p o) (Portfolio.cancelOpening 0 q o') := by
  obtain ⟨hk, heq⟩ := PendingOrder.share_eq_some ho
  have hzero : o'.position = 0 := by rw [heq]
  have hclosing : o'.closing = o.closing := by rw [heq]
  have hindex : o'.legIndex = o.legIndex := by rw [heq]
  unfold Portfolio.cancelOpening
  rw [hclosing, hindex]
  by_cases hcl : o.closing = false
  · rw [if_pos ⟨hk, hcl⟩, if_pos ⟨hzero, hcl⟩]
    exact (h.modifyLeg o.legIndex _).countCancelled o o'
  · rw [if_neg (fun hc => hcl hc.2), if_neg (fun hc => hcl hc.2)]
    exact h.keep ho

/-- The queue of `p` is rewritten, and an order of another position is dropped from it. -/
theorem Mirrors.cancelOpening_other {id : PositionId} (hid : id ≠ k) {o : PendingOrder} {rest : List PendingOrder}
    (h : Mirrors k (p.withRest (o :: rest)) q) : Mirrors k ((Portfolio.cancelOpening id p o).withRest rest) q := by
  unfold Portfolio.cancelOpening
  split_ifs with ho
  · have hnone : o.share k = none := if_neg (by rw [ho.1]; exact hid)
    have hremoved : Mirrors k (p.withRest rest) q :=
      { h with
        pending := by
          rw [← h.pending]
          show (p.pending ++ rest).filterMap _ = (p.pending ++ o :: rest).filterMap _
          rw [List.filterMap_append, List.filterMap_append, List.filterMap_cons_none hnone] }
    exact (hremoved.modifyLeg_other hid o.legIndex _).countCancelled_other o
  · rw [withRest_keep]
    exact h

/-- Closing a position changes no rule. -/
theorem submitClose_frame {p p' : Portfolio F} {id : PositionId} {now : Timestamp}
    (h : p.submitClose id now = .ok p') : OrderFrame p p' := by
  obtain ⟨pos, _, h⟩ := Run.bind_eq_ok.mp h
  have hcancel := Run.foldl_inv (f := Portfolio.cancelOpening id) (OrderFrame p) p.pending
    (fun p' o _ hf => hf.trans (cancelOpening_frame id p' o)) (s := { p with pending := [] }) ⟨rfl, rfl, rfl⟩
  refine Run.foldlM_inv (OrderFrame p) (fun p₁ i p₂ hf hstep => ?_) _ _ p' hcancel h
  unfold closeIfOpen at hstep
  split at hstep
  · split at hstep
    · exact hf.trans (submitCloseLeg_frame hstep)
    · cases hstep
      exact hf
  · cases hstep
    exact hf

/-- The position is closed on both sides: both loops run in step. -/
theorem Mirrors.submitClose (h : Mirrors k p q) (hflag : p.closingFromRule = q.closingFromRule)
    {now : Timestamp} {p' : Portfolio F} (hop : p.submitClose k now = .ok p') :
    ∃ q', q.submitClose 0 now = .ok q' ∧ Mirrors k p' q' := by
  obtain ⟨pos, hpos, hop⟩ := Run.bind_eq_ok.mp hop
  obtain ⟨pos', hpos', hlegs⟩ := h.atId hpos
  -- the loop over the queue: the one of `q` sees the orders of the position alone
  have hcancel := Run.foldl_sim_select
    (fun p' q' => Mirrors k p' q' ∧ p'.closingFromRule = q'.closingFromRule) (PendingOrder.share k)
    PendingOrder.unnumbered
    (fun p' q' o o' ho ⟨hm, hf⟩ => ⟨hm.cancelOpening ho, by
      rw [(cancelOpening_frame k p' o).flag, (cancelOpening_frame 0 q' o').flag, hf]⟩)
    (fun p' q' o ho ⟨hm, hf⟩ => by
      have hk : ¬ (o.position = k ∧ o.closing = false) := fun hc => PendingOrder.share_eq_none ho hc.1
      unfold Portfolio.cancelOpening
      rw [if_neg hk]
      exact ⟨hm.keep_other ho, hf⟩)
    h.pending ⟨h.drained, hflag⟩
  -- the loop over the legs, which are the same
  obtain ⟨q', hq', hm, _⟩ : ∃ q', (List.range pos.legs.length).foldlM (closeIfOpen 0 now)
      (q.pending.foldl (Portfolio.cancelOpening 0) { q with pending := [] }) = .ok q' ∧ Mirrors k p' q' ∧
        p'.closingFromRule = q'.closingFromRule := Run.foldlM_sim
    (fun p' q' => Mirrors k p' q' ∧ p'.closingFromRule = q'.closingFromRule) _ (by
      rintro p₁ q₁ i _ p₂ ⟨hm, hf⟩ hstep
      unfold closeIfOpen at hstep ⊢
      rw [← hm.leg? i]
      cases hleg : p₁.leg? k i with
      | none =>
          rw [hleg] at hstep
          cases hstep
          exact ⟨q₁, rfl, hm, hf⟩
      | some leg =>
          rw [hleg] at hstep
          dsimp only at hstep ⊢
          split_ifs at hstep ⊢ with hopen
          · obtain ⟨q₂, hq₂, hm₂⟩ := hm.submitCloseLeg hf hstep
            exact ⟨q₂, hq₂, hm₂, by
              rw [(submitCloseLeg_frame hstep).flag, (submitCloseLeg_frame hq₂).flag, hf]⟩
          · cases hstep
            exact ⟨q₁, rfl, hm, hf⟩) hcancel hop
  refine ⟨q', ?_, hm⟩
  unfold Portfolio.submitClose
  rw [hpos', Run.ok_bind, hlegs]
  exact hq'

/-- Another position is closed; only its own orders leave the queue of `p`. -/
theorem Mirrors.submitClose_other (h : Mirrors k p q) {id : PositionId} (hid : id ≠ k) {now : Timestamp}
    {p' : Portfolio F} (hop : p.submitClose id now = .ok p') : Mirrors k p' q := by
  obtain ⟨pos, _, hop⟩ := Run.bind_eq_ok.mp hop
  have hcancel := Run.foldl_inv_rest (f := Portfolio.cancelOpening id)
    (fun rest p' => Mirrors k (p'.withRest rest) q) p.pending
    (fun _ _ _ hm => hm.cancelOpening_other hid) (s := { p with pending := [] }) (by rw [withRest_start]; exact h)
  rw [withRest_nil] at hcancel
  refine Run.foldlM_inv (fun p' => Mirrors k p' q) (fun p₁ i p₂ hm hstep => ?_) _ _ p' hcancel hop
  unfold closeIfOpen at hstep
  split at hstep
  · split at hstep
    · exact hm.submitCloseLeg_other hid hstep
    · cases hstep
      exact hm
  · cases hstep
    exact hm

/-! ### Fills -/

/-- An order of the position is executed on both sides. -/
theorem Mirrors.execute (h : Mirrors k p q) {o o' : PendingOrder} (ho : o.share k = some o'.unnumbered)
    (price : Price) (now : Timestamp) : Mirrors k (p.execute o price now) (q.execute o' price now) := by
  obtain ⟨rfl, heq⟩ := PendingOrder.share_eq_some ho
  unfold Portfolio.execute
  rw [heq]
  dsimp only
  split_ifs
  · exact { h.modifyLeg o.legIndex _ with }
  · exact h.modifyLeg o.legIndex _

theorem Mirrors.execute_other (h : Mirrors k p q) {o : PendingOrder} (ho : o.share k = none) (price : Price)
    (now : Timestamp) : Mirrors k (p.execute o price now) q := by
  unfold Portfolio.execute
  split_ifs
  · exact { h.modifyLeg_other (PendingOrder.share_eq_none ho) o.legIndex _ with }
  · exact h.modifyLeg_other (PendingOrder.share_eq_none ho) o.legIndex _

variable [Double F]

/-- The trade an order of the position is booked as is the same on both sides. -/
theorem Mirrors.fillOrder (h : Mirrors k p q) {o o' : PendingOrder} (ho : o.share k = some o'.unnumbered)
    (spec : InstrumentSpec) (quote : Quote) (price : Price) (now : Timestamp) :
    Mirrors k (p.fillOrder spec o quote price now) (q.fillOrder spec o' quote price now) := by
  have hexec := h.execute ho price now
  obtain ⟨hk, heq⟩ := PendingOrder.share_eq_some ho
  have htrade : (p.tradeOf spec o quote price now).share k = some (q.tradeOf spec o' quote price now) := by
    unfold Portfolio.tradeOf TradeRecord.share
    rw [if_pos hk, heq, h.fills, h.costPolicy]
  exact { hexec with
    trades := by
      show (p.trades ++ [_]).filterMap _ = q.trades ++ [_]
      rw [List.filterMap_append, h.trades, List.filterMap_cons_some htrade]
      rfl }

/-- The trade of another position is no part of the share. -/
theorem Mirrors.fillOrder_other (h : Mirrors k p q) {o : PendingOrder} (ho : o.share k = none)
    (spec : InstrumentSpec) (quote : Quote) (price : Price) (now : Timestamp) :
    Mirrors k (p.fillOrder spec o quote price now) q := by
  have hexec := h.execute_other ho price now
  have htrade : (p.tradeOf spec o quote price now).share k = none := if_neg (PendingOrder.share_eq_none ho)
  exact { hexec with
    trades := by
      show (p.trades ++ [_]).filterMap _ = q.trades
      rw [List.filterMap_append, h.trades, List.filterMap_cons_none htrade]
      simp }

/-- One pass over the queue: what is due on one side is due on the other, at the same price. -/
theorem Mirrors.processPending (h : Mirrors k p q) {market : MarketView} {p' : Portfolio F}
    (hop : p.processPending market = .ok p') : ∃ q', q.processPending market = .ok q' ∧ Mirrors k p' q' := by
  refine Run.foldlM_sim_select (Mirrors k) (PendingOrder.share k) PendingOrder.unnumbered ?_ ?_ h.pending
    h.drained hop
  · intro p₁ q₁ o o' p₂ ho hm hstep
    obtain ⟨_, heq⟩ := PendingOrder.share_eq_some ho
    have hexec : executable q₁.fills market o' = executable p₁.fills market o := by
      rw [hm.fills, heq]
      rfl
    have hinst : o'.instrument = o.instrument := by rw [heq]
    unfold processOrder at hstep ⊢
    rw [hexec, hinst]
    cases hx : executable p₁.fills market o with
    | none =>
        rw [hx] at hstep
        cases hstep
        exact ⟨_, rfl, hm.keep ho⟩
    | some x =>
        rw [hx] at hstep
        obtain ⟨spec, hspec, hstep⟩ := Run.bind_eq_ok.mp hstep
        cases hstep
        exact ⟨_, Run.bind_eq_ok.mpr ⟨spec, hspec, rfl⟩, hm.fillOrder ho spec x.1 x.2 market.now⟩
  · intro p₁ q₁ o p₂ ho hm hstep
    obtain rfl | ⟨quote, price, spec, _, _, _, _, rfl⟩ := processOrder_cases hstep
    · exact hm.keep_other ho
    · exact hm.fillOrder_other ho spec quote price market.now

omit [Double F] in
theorem execute_frame (p : Portfolio F) (o : PendingOrder) (price : Price) (now : Timestamp) :
    OrderFrame p (p.execute o price now) := by
  unfold Portfolio.execute
  split_ifs
  · exact ⟨rfl, by simp, rfl⟩
  · exact ⟨rfl, by simp, rfl⟩

/-- A pass over the queue adds no position, and changes no rule. -/
theorem processPending_frame {market : MarketView} {p' : Portfolio F} (h : p.processPending market = .ok p') :
    OrderFrame p p' := by
  refine Run.foldlM_inv (OrderFrame p) (fun p₁ o p₂ hf hstep => ?_) _ { p with pending := [] } p' ⟨rfl, rfl, rfl⟩ h
  obtain rfl | ⟨quote, price, spec, _, _, _, _, rfl⟩ := processOrder_cases hstep
  · exact ⟨hf.flag, hf.length, hf.rules⟩
  · have hexec := hf.trans (execute_frame p₁ o price market.now)
    exact ⟨hexec.flag, hexec.length, hexec.rules⟩

/-! ### Marks -/

omit [Double F] in
/-- Marks are taken on both sides. -/
theorem Mirrors.refreshMarks (h : Mirrors k p q) (market : MarketView) :
    Mirrors k (p.refreshMarks market) (q.refreshMarks market) := by
  have hids : ∀ positions : List Position,
      (∀ (id : PositionId) (pos : Position), positions[id]? = some pos → pos.id = id) →
      ∀ (id : PositionId) (pos : Position), (positions.map fun pos =>
        { pos with legs := pos.legs.map (refreshMark market) })[id]? = some pos → pos.id = id := by
    intro positions hpositions id pos hpos
    rw [List.getElem?_map] at hpos
    obtain ⟨pos', hpos', rfl⟩ := Option.map_eq_some_iff.mp hpos
    exact hpositions id pos' hpos'
  refine { h with ids := hids _ h.ids, ids' := hids _ h.ids', single := ?_, legs := ?_ }
  · simpa [Portfolio.refreshMarks] using h.single
  · show (_ : Option Position).map _ = (_ : Option Position).map _
    simp only [Portfolio.refreshMarks, List.getElem?_map, Option.map_map]
    have hmap : ∀ x : Option Position,
        x.map ((·.legs) ∘ fun pos => { pos with legs := pos.legs.map (refreshMark market) }) =
          (x.map (·.legs)).map (fun legs => legs.map (refreshMark market)) := by
      intro x
      cases x <;> rfl
    rw [hmap, hmap, h.legs]

/-! ### Attaching rules -/

omit [Double F] in
/-- A rule is attached to the position on both sides. -/
theorem Mirrors.attach (h : Mirrors k p q) {r r' : RiskRule F} (hr : r.share k = some r') :
    Mirrors k { p with rules := p.rules ++ [r] } { q with rules := q.rules ++ [r'] } :=
  { h with
    rules := by
      show (p.rules ++ [r]).filterMap _ = q.rules ++ [r']
      rw [List.filterMap_append, h.rules, List.filterMap_cons_some hr]
      rfl }

omit [Double F] in
theorem Mirrors.attach_other (h : Mirrors k p q) {r : RiskRule F} (hr : r.position ≠ k) :
    Mirrors k { p with rules := p.rules ++ [r] } q :=
  { h with
    rules := by
      have hnone : r.share k = none := if_neg hr
      show (p.rules ++ [r]).filterMap _ = q.rules
      rw [List.filterMap_append, h.rules, List.filterMap_cons_none hnone]
      simp }

/-! ### Settlement

Settlement visits all legs of all positions; those of position `k` are visited in the order of `q`. -/

/-- The slots of position `k`, which is renumbered. -/
def shareSlot (k : PositionId) (slot : PositionId × Nat) : Option (PositionId × Nat) :=
  if slot.1 = k then some (0, slot.2) else none

omit [Double F] in
/-- The slots of one position are the indices of its legs, in order. -/
theorem slots_share (p : Portfolio F) (k : PositionId) :
    p.slots.filterMap (shareSlot k) =
      (((p.positions[k]?).map (·.legs)).map (fun legs => (List.range legs.length).map (fun i => (0, i)))).getD [] := by
  have hrow : ∀ (pos : Position) (id : PositionId),
      ((List.range pos.legs.length).map (fun i => (id, i))).filterMap (shareSlot k) =
        if id = k then (List.range pos.legs.length).map (fun i => (0, i)) else [] := by
    intro pos id
    rw [List.filterMap_map]
    by_cases hid : id = k
    · have hall : shareSlot k ∘ (fun i => (id, i)) = fun i => some (0, i) := by
        funext i
        exact if_pos hid
      rw [if_pos hid, hall, ← List.filterMap_eq_map]
      rfl
    · have hnone : shareSlot k ∘ (fun i => (id, i)) = fun _ => none := by
        funext i
        exact if_neg hid
      rw [if_neg hid, hnone]
      simp
  -- the positions from number `n` on
  have hfrom : ∀ (positions : List Position) (n : PositionId),
      ((positions.zipIdx n).flatMap (fun x => (List.range x.1.legs.length).map (fun i => (x.2, i)))).filterMap
          (shareSlot k) =
        if n ≤ k then (((positions[k - n]?).map (·.legs)).map
          (fun legs => (List.range legs.length).map (fun i => (0, i)))).getD [] else [] := by
    intro positions
    induction positions with
    | nil => intro n; simp
    | cons pos positions ih =>
        intro n
        rw [List.zipIdx_cons, List.flatMap_cons, List.filterMap_append, hrow, ih (n + 1)]
        obtain hlt | rfl | hgt := Nat.lt_trichotomy n k
        · have hsub : k - n = (k - (n + 1)) + 1 := by lia
          rw [if_neg (ne_of_lt hlt), if_pos (Nat.succ_le_of_lt hlt), if_pos (le_of_lt hlt), hsub,
            List.getElem?_cons_succ, List.nil_append]
        · rw [if_pos rfl, if_neg (by lia), if_pos (Nat.le_refl _), Nat.sub_self, List.append_nil]
          rfl
        · rw [if_neg (Ne.symm (ne_of_lt hgt)), if_neg (by lia), if_neg (not_le.mpr hgt), List.append_nil]
  have hzero := hfrom p.positions 0
  rw [if_pos (Nat.zero_le k), Nat.sub_zero] at hzero
  exact hzero

omit [Double F] in
/-- Settlement visits the legs of the position in the order in which it visits those of `q`. -/
theorem Mirrors.slots (h : Mirrors k p q) : p.slots.filterMap (shareSlot k) = q.slots.map (fun slot => slot) := by
  have hall : q.slots.filterMap (shareSlot 0) = q.slots.map (fun slot => slot) := by
    rw [← List.filterMap_eq_map]
    refine List.filterMap_congr (fun slot hslot => ?_)
    obtain ⟨⟨pos, id⟩, hpos, hi⟩ := List.mem_flatMap.mp hslot
    obtain ⟨i, _, rfl⟩ := List.mem_map.mp hi
    have hid := (List.mem_zipIdx hpos).2.1
    have hzero : id = 0 := by
      have := h.single
      omega
    subst hzero
    rfl
  rw [← hall, slots_share, slots_share, h.legs]

/-- A leg of the position is settled, or passed over, on both sides. -/
theorem Mirrors.settleIfDue (h : Mirrors k p q) {market : MarketView} {expiry : Date} {level : F}
    {at_ : Timestamp} {i : Nat} {p' : Portfolio F} (hop : settleIfDue market expiry level at_ p (k, i) = .ok p') :
    ∃ q', Portfolio.settleIfDue market expiry level at_ q (0, i) = .ok q' ∧ Mirrors k p' q' := by
  unfold Portfolio.settleIfDue at hop ⊢
  dsimp only at hop ⊢
  rw [← h.leg? i]
  cases hleg : p.leg? k i with
  | none =>
      rw [hleg] at hop
      cases hop
      exact ⟨q, rfl, h⟩
  | some leg =>
      rw [hleg] at hop
      dsimp only at hop ⊢
      split_ifs at hop ⊢
      · cases hop
        exact ⟨q, rfl, h⟩
      · obtain ⟨spec, hspec, hop⟩ := Run.bind_eq_ok.mp hop
        rw [hspec, Run.ok_bind]
        split_ifs at hop ⊢
        · cases hop
          exact ⟨q, rfl, h⟩
        · cases hop
          refine ⟨_, rfl, ?_⟩
          obtain ⟨pos, hpos, _⟩ := leg?_eq_some.mp hleg
          obtain ⟨pos', hpos', _⟩ := leg?_eq_some.mp ((h.leg? i).symm.trans hleg)
          exact { h.modifyLeg i _ with
            trades := by
              show (p.trades ++ [_]).filterMap _ = q.trades ++ [_]
              rw [hpos, hpos']
              simp only [Option.map_some, Option.getD_some, h.ids k pos hpos, h.ids' 0 pos' hpos']
              rw [List.filterMap_append, h.trades]
              simp [TradeRecord.share, h.costPolicy] }

theorem Mirrors.settleIfDue_other (h : Mirrors k p q) {market : MarketView} {expiry : Date} {level : F}
    {at_ : Timestamp} {slot : PositionId × Nat} (hslot : slot.1 ≠ k) {p' : Portfolio F}
    (hop : Portfolio.settleIfDue market expiry level at_ p slot = .ok p') : Mirrors k p' q := by
  obtain ⟨id, i⟩ := slot
  unfold Portfolio.settleIfDue at hop
  dsimp only at hop hslot
  cases hleg : p.leg? id i with
  | none =>
      rw [hleg] at hop
      cases hop
      exact h
  | some leg =>
      rw [hleg] at hop
      dsimp only at hop
      split_ifs at hop
      · cases hop
        exact h
      · obtain ⟨spec, hspec, hop⟩ := Run.bind_eq_ok.mp hop
        split_ifs at hop
        · cases hop
          exact h
        · cases hop
          obtain ⟨pos, hpos, _⟩ := leg?_eq_some.mp hleg
          exact { h.modifyLeg_other hslot i _ with
            trades := by
              show (p.trades ++ [_]).filterMap _ = q.trades
              rw [hpos]
              simp only [Option.map_some, Option.getD_some, h.ids id pos hpos]
              rw [List.filterMap_append, h.trades]
              simp [TradeRecord.share, hslot] }

omit [Double F] in
theorem Mirrors.setState (h : Mirrors k p q) (i : Nat) (st : LegState) :
    Mirrors k (p.setState k i st) (q.setState 0 i st) := h.modifyLeg i _

omit [Double F] in
theorem Mirrors.setState_other (h : Mirrors k p q) {id : PositionId} (hid : id ≠ k) (i : Nat) (st : LegState) :
    Mirrors k (p.setState id i st) q := h.modifyLeg_other hid i _

omit [Double F] in
/-- An order of the position is dropped, or kept, on both sides. -/
theorem Mirrors.dropIfExpired (h : Mirrors k p q) {market : MarketView} {expiry : Date} {o o' : PendingOrder}
    (ho : o.share k = some o'.unnumbered) {p' : Portfolio F} (hop : dropIfExpired market expiry p o = .ok p') :
    ∃ q', Portfolio.dropIfExpired market expiry q o' = .ok q' ∧ Mirrors k p' q' := by
  obtain ⟨hk, heq⟩ := PendingOrder.share_eq_some ho
  have hinst : o'.instrument = o.instrument := by rw [heq]
  have hzero : o'.position = 0 := by rw [heq]
  have hindex : o'.legIndex = o.legIndex := by rw [heq]
  have hclosing : o'.closing = o.closing := by rw [heq]
  obtain ⟨spec, hspec, hop⟩ := Run.bind_eq_ok.mp hop
  unfold Portfolio.dropIfExpired
  rw [hinst, hspec, Run.ok_bind, hzero, hindex, ← h.leg? o.legIndex, hclosing]
  rw [hk] at hop
  split_ifs at hop ⊢ with hexp
  · cases hleg : p.leg? k o.legIndex with
    | none =>
        rw [hleg] at hop
        cases hop
        exact ⟨_, rfl, h.countCancelled o o'⟩
    | some leg =>
        rw [hleg] at hop
        dsimp only at hop ⊢
        split_ifs at hop ⊢
        · cases hop
          exact ⟨_, rfl, (h.setState o.legIndex _).countCancelled o o'⟩
        · cases hop
          exact ⟨_, rfl, h.countCancelled o o'⟩
  · cases hop
    exact ⟨_, rfl, h.keep ho⟩

omit [Double F] in
theorem Mirrors.dropIfExpired_other (h : Mirrors k p q) {market : MarketView} {expiry : Date} {o : PendingOrder}
    (ho : o.share k = none) {p' : Portfolio F} (hop : Portfolio.dropIfExpired market expiry p o = .ok p') :
    Mirrors k p' q := by
  obtain ⟨spec, _, hop⟩ := Run.bind_eq_ok.mp hop
  split_ifs at hop
  · split at hop
    · split_ifs at hop
      · cases hop
        exact (h.setState_other (PendingOrder.share_eq_none ho) o.legIndex _).countCancelled_other o
      · cases hop
        exact h.countCancelled_other o
    · cases hop
      exact h.countCancelled_other o
  · cases hop
    exact h.keep_other ho

/-- **A settlement** is mirrored: the loop over the legs, then the one over the queue. -/
theorem Mirrors.settleExpiry (h : Mirrors k p q) {market : MarketView} {expiry : Date} {level : F}
    {at_ : Timestamp} {p' : Portfolio F} {n : Nat} (hop : p.settleExpiry market expiry level at_ = .ok (p', n)) :
    ∃ q' n', q.settleExpiry market expiry level at_ = .ok (q', n') ∧ Mirrors k p' q' := by
  obtain ⟨p₁, hlegs, hop⟩ := Run.bind_eq_ok.mp hop
  obtain ⟨p₂, horders, hop⟩ := Run.bind_eq_ok.mp hop
  cases hop
  obtain ⟨q₁, hlegs', hm₁⟩ : ∃ q₁, q.slots.foldlM (Portfolio.settleIfDue market expiry level at_) q = .ok q₁ ∧
      Mirrors k p₁ q₁ := Run.foldlM_sim_select (Mirrors k) (shareSlot k) (fun slot => slot) (by
      rintro p₁ q₁ ⟨id, i⟩ slot p₂ hslot hm hstep
      unfold shareSlot at hslot
      split_ifs at hslot with hid
      cases hslot
      have hid : id = k := hid
      subst hid
      exact hm.settleIfDue hstep) (by
      rintro p₁ q₁ slot p₂ hslot hm hstep
      unfold shareSlot at hslot
      split_ifs at hslot with hid
      exact hm.settleIfDue_other hid hstep) h.slots h hlegs
  obtain ⟨q₂, horders', hm₂⟩ : ∃ q₂, q₁.pending.foldlM (Portfolio.dropIfExpired market expiry)
      { q₁ with pending := [] } = .ok q₂ ∧ Mirrors k p' q₂ := Run.foldlM_sim_select (Mirrors k)
    (PendingOrder.share k) PendingOrder.unnumbered
    (fun _ _ _ _ _ ho hm hstep => hm.dropIfExpired ho hstep)
    (fun _ _ _ _ ho hm hstep => hm.dropIfExpired_other ho hstep) hm₁.pending hm₁.drained horders
  exact ⟨q₂, _, Run.bind_eq_ok.mpr ⟨q₁, hlegs', Run.bind_eq_ok.mpr ⟨q₂, horders', rfl⟩⟩, hm₂⟩

theorem settleIfDue_frame {market : MarketView} {expiry : Date} {level : F} {at_ : Timestamp}
    {slot : PositionId × Nat} {p' : Portfolio F}
    (h : Portfolio.settleIfDue market expiry level at_ p slot = .ok p') : OrderFrame p p' := by
  unfold Portfolio.settleIfDue at h
  split at h
  · cases h
    exact .refl p
  · split_ifs at h
    · cases h
      exact .refl p
    · obtain ⟨spec, _, h⟩ := Run.bind_eq_ok.mp h
      split_ifs at h
      · cases h
        exact .refl p
      · cases h
        exact ⟨rfl, by simp [settleLeg], rfl⟩

omit [Double F] in
theorem dropIfExpired_frame {market : MarketView} {expiry : Date} {o : PendingOrder} {p' : Portfolio F}
    (h : Portfolio.dropIfExpired market expiry p o = .ok p') : OrderFrame p p' := by
  obtain ⟨spec, _, h⟩ := Run.bind_eq_ok.mp h
  split_ifs at h
  · split at h
    · split_ifs at h
      · cases h
        exact ⟨rfl, by simp [Portfolio.countCancelled, Portfolio.setState], rfl⟩
      · cases h
        exact ⟨rfl, rfl, rfl⟩
    · cases h
      exact ⟨rfl, rfl, rfl⟩
  · cases h
    exact ⟨rfl, rfl, rfl⟩

/-- A settlement adds no position, and changes no rule. -/
theorem settleExpiry_frame {market : MarketView} {expiry : Date} {level : F} {at_ : Timestamp} {p' : Portfolio F}
    {n : Nat} (h : p.settleExpiry market expiry level at_ = .ok (p', n)) : OrderFrame p p' := by
  obtain ⟨p₁, hlegs, h⟩ := Run.bind_eq_ok.mp h
  obtain ⟨p₂, horders, h⟩ := Run.bind_eq_ok.mp h
  cases h
  have hsettled := Run.foldlM_inv (OrderFrame p) (fun _ _ _ hf hstep => hf.trans (settleIfDue_frame hstep)) _ p p₁
    (.refl p) hlegs
  exact Run.foldlM_inv (OrderFrame p) (fun _ _ _ hf hstep => hf.trans (dropIfExpired_frame hstep)) _
    { p₁ with pending := [] } p' ⟨hsettled.flag, hsettled.length, hsettled.rules⟩ horders

/-! ### The end of a session

The bell collects the positions whose exits it gives up, and re-arms their rules afterwards. -/

/-- Position `k` is on the one list exactly when it is on the other as `0`. -/
def SameAbandoned (k : PositionId) (abandoned abandoned' : List PositionId) : Prop :=
  k ∈ abandoned ↔ (0 : PositionId) ∈ abandoned'

omit [Double F] in
/-- At the bell an order of the position is given up on both sides, with the same consequence. -/
theorem Mirrors.abandonOrder {acc acc' : Portfolio F × List PositionId} (h : Mirrors k acc.1 acc'.1)
    (hset : SameAbandoned k acc.2 acc'.2) {o o' : PendingOrder} (ho : o.share k = some o'.unnumbered) :
    Mirrors k (abandonOrder acc o).1 (Portfolio.abandonOrder acc' o').1 ∧
      SameAbandoned k (Portfolio.abandonOrder acc o).2 (Portfolio.abandonOrder acc' o').2 := by
  obtain ⟨p, abandoned⟩ := acc
  obtain ⟨q, abandoned'⟩ := acc'
  obtain ⟨hk, heq⟩ := PendingOrder.share_eq_some ho
  have hzero : o'.position = 0 := by rw [heq]
  have hindex : o'.legIndex = o.legIndex := by rw [heq]
  have hclosing : o'.closing = o.closing := by rw [heq]
  have hm : Mirrors k p q := h
  have hadd : SameAbandoned k (k :: abandoned) (0 :: abandoned') := by simp [SameAbandoned]
  unfold Portfolio.abandonOrder
  dsimp only
  rw [hk, hzero, hindex, hclosing, ← hm.leg? o.legIndex]
  cases p.leg? k o.legIndex with
  | none => exact ⟨hm.countCancelled o o', hset⟩
  | some leg =>
      dsimp only
      split_ifs
      · exact ⟨(hm.setState o.legIndex _).countCancelled o o', hadd⟩
      · exact ⟨hm.countCancelled o o', hset⟩
      · exact ⟨(hm.setState o.legIndex _).countCancelled o o', hset⟩
      · exact ⟨hm.countCancelled o o', hset⟩

omit [Double F] in
theorem Mirrors.abandonOrder_other {acc acc' : Portfolio F × List PositionId} (h : Mirrors k acc.1 acc'.1)
    (hset : SameAbandoned k acc.2 acc'.2) {o : PendingOrder} (ho : o.share k = none) :
    Mirrors k (Portfolio.abandonOrder acc o).1 acc'.1 ∧
      SameAbandoned k (Portfolio.abandonOrder acc o).2 acc'.2 := by
  obtain ⟨p, abandoned⟩ := acc
  have hk := PendingOrder.share_eq_none ho
  have hm : Mirrors k p acc'.1 := h
  have hadd : SameAbandoned k (o.position :: abandoned) acc'.2 := by
    unfold SameAbandoned
    rw [List.mem_cons, or_iff_right (Ne.symm hk)]
    exact hset
  unfold Portfolio.abandonOrder
  dsimp only
  cases p.leg? o.position o.legIndex with
  | none => exact ⟨hm.countCancelled_other o, hset⟩
  | some leg =>
      dsimp only
      split_ifs
      · exact ⟨(hm.setState_other hk o.legIndex _).countCancelled_other o, hadd⟩
      · exact ⟨hm.countCancelled_other o, hset⟩
      · exact ⟨(hm.setState_other hk o.legIndex _).countCancelled_other o, hset⟩
      · exact ⟨hm.countCancelled_other o, hset⟩

omit [Double F] in
theorem abandonOrder_frame (acc : Portfolio F × List PositionId) (o : PendingOrder) :
    OrderFrame acc.1 (Portfolio.abandonOrder acc o).1 := by
  obtain ⟨p, abandoned⟩ := acc
  unfold Portfolio.abandonOrder
  dsimp only
  split
  · exact ⟨rfl, rfl, rfl⟩
  · split_ifs
    · exact ⟨rfl, by simp [Portfolio.countCancelled, Portfolio.setState], rfl⟩
    · exact ⟨rfl, rfl, rfl⟩
    · exact ⟨rfl, by simp [Portfolio.countCancelled, Portfolio.setState], rfl⟩
    · exact ⟨rfl, rfl, rfl⟩

omit [Double F] in
/-- Whether a position is open is read off its legs. -/
theorem isOpen_congr {pos pos' : Position} (h : pos'.legs = pos.legs) : pos'.isOpen = pos.isOpen := by
  unfold Position.isOpen
  rw [h]

omit [Double F] in
/-- A rule of the position is re-armed on both sides. -/
theorem Mirrors.rearm (h : Mirrors k p q) {abandoned abandoned' : List PositionId}
    (hset : SameAbandoned k abandoned abandoned') {rule rule' r : RiskRule F}
    (hop : Portfolio.rearm p abandoned rule = .ok rule') (hr : rule.share k = some r) :
    ∃ r', Portfolio.rearm q abandoned' r = .ok r' ∧ rule'.share k = some r' := by
  unfold RiskRule.share at hr
  split_ifs at hr with hk
  cases hr
  unfold Portfolio.rearm at hop ⊢
  dsimp only
  rw [hk] at hop
  by_cases hfired : rule.fired = false
  · rw [if_pos hfired] at hop ⊢
    cases hop
    exact ⟨_, rfl, if_pos hk⟩
  · rw [if_neg hfired] at hop ⊢
    by_cases hleft : k ∈ abandoned
    · -- an exit was given up: both rules are armed again while the position is open
      rw [if_neg (not_not.mpr hleft)] at hop
      rw [if_neg (not_not.mpr (hset.mp hleft))]
      obtain ⟨pos, hpos, hop⟩ := Run.bind_eq_ok.mp hop
      obtain ⟨pos', hpos', hlegs⟩ := h.atId hpos
      rw [hpos', Run.ok_bind, isOpen_congr hlegs]
      split_ifs at hop ⊢
      · cases hop
        exact ⟨_, rfl, if_pos hk⟩
      · cases hop
        exact ⟨_, rfl, by simp [RiskRule.share]⟩
    · rw [if_pos hleft] at hop
      rw [if_pos (fun hc => hleft (hset.mpr hc))]
      cases hop
      exact ⟨_, rfl, if_pos hk⟩

omit [Double F] in
/-- Re-arming moves no rule to another position. -/
theorem rearm_position {abandoned : List PositionId} {rule rule' : RiskRule F}
    (hop : Portfolio.rearm p abandoned rule = .ok rule') : rule'.position = rule.position := by
  unfold Portfolio.rearm at hop
  split_ifs at hop
  · cases hop
    rfl
  · obtain ⟨pos, _, hop⟩ := Run.bind_eq_ok.mp hop
    split_ifs at hop
    · cases hop
      rfl
    · cases hop
      rfl
  · cases hop
    rfl

omit [Double F] in
/-- **The bell** is mirrored: the orders are given up, then the rules re-armed. -/
theorem Mirrors.cancelWorkingOrders (h : Mirrors k p q) {p' : Portfolio F} {n : Nat}
    (hop : p.cancelWorkingOrders = .ok (p', n)) : ∃ q' n', q.cancelWorkingOrders = .ok (q', n') ∧ Mirrors k p' q' := by
  let Same : Portfolio F × List PositionId → Portfolio F × List PositionId → Prop :=
    fun acc acc' => Mirrors k acc.1 acc'.1 ∧ SameAbandoned k acc.2 acc'.2
  have hloop : Same (p.pending.foldl Portfolio.abandonOrder ({ p with pending := [] }, []))
      (q.pending.foldl Portfolio.abandonOrder ({ q with pending := [] }, [])) := Run.foldl_sim_select Same
    (PendingOrder.share k) PendingOrder.unnumbered (fun _ _ _ _ ho hm => hm.1.abandonOrder hm.2 ho)
    (fun _ _ _ ho hm => hm.1.abandonOrder_other hm.2 ho) h.pending ⟨h.drained, by simp [SameAbandoned]⟩
  unfold Portfolio.cancelWorkingOrders at hop ⊢
  generalize p.pending.foldl Portfolio.abandonOrder ({ p with pending := [] }, []) = acc at hop hloop
  generalize q.pending.foldl Portfolio.abandonOrder ({ q with pending := [] }, []) = acc' at hloop ⊢
  obtain ⟨p₁, abandoned⟩ := acc
  obtain ⟨q₁, abandoned'⟩ := acc'
  obtain ⟨hm, hset⟩ := hloop
  have hm : Mirrors k p₁ q₁ := hm
  obtain ⟨rules, hrules, hop⟩ := Run.bind_eq_ok.mp hop
  have hrules' : (p₁.rules.filterMap (RiskRule.share k)).mapM (Portfolio.rearm q₁ abandoned') =
      .ok (rules.filterMap (RiskRule.share k)) := Run.mapM_select (fun _ _ _ hx hsel => hm.rearm hset hx hsel)
    (fun x y hx hsel => by
      unfold RiskRule.share at hsel ⊢
      rw [rearm_position hx]
      split_ifs at hsel ⊢ with hk
      rfl) hrules
  rw [hm.rules] at hrules'
  cases hop
  exact ⟨_, _, Run.bind_eq_ok.mpr ⟨_, hrules', rfl⟩, { hm with rules := rfl }⟩

omit [Double F] in
theorem cancelWorkingOrders_frame {p' : Portfolio F} {n : Nat} (h : p.cancelWorkingOrders = .ok (p', n)) :
    p'.closingFromRule = p.closingFromRule ∧ p'.positions.length = p.positions.length := by
  have hframe := Run.foldl_inv (f := Portfolio.abandonOrder) (fun acc => OrderFrame p acc.1) p.pending
    (fun acc o _ hf => hf.trans (abandonOrder_frame acc o)) (s := ({ p with pending := [] }, [])) ⟨rfl, rfl, rfl⟩
  unfold Portfolio.cancelWorkingOrders at h
  generalize p.pending.foldl Portfolio.abandonOrder ({ p with pending := [] }, []) = acc at h hframe
  obtain ⟨p₁, abandoned⟩ := acc
  obtain ⟨rules, _, h⟩ := Run.bind_eq_ok.mp h
  cases h
  exact ⟨hframe.flag, hframe.length⟩

end Portfolio

end Volforge
