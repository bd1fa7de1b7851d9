import Volforge.Core.Correctness.Closings
import Volforge.Core.Correctness.Engine
import Volforge.Core.Correctness.Marks

/-!
# `Core.Correctness.Erasure` — a portfolio without its carried marks

The marks a leg carries are read when it is valued and nowhere else. Erasing them commutes with every operation
that values nothing, and with the risk rules as long as every live leg is worth the same without its mark.

## Contents
- **Legs and positions** without marks, and what they are worth.
- **Portfolios.** `eraseMarks` commutes with each operation.
- **Margin** does not read marks.
-/

namespace Volforge

/-! ## Legs and positions

A leg is valued at its quote where it has one, and at its mark, or its entry, where it has none. So a mark
matters to a leg that is held and not quoted, and to no other. -/

namespace Leg

/-- The leg as if no mark had ever been taken. -/
def eraseMark (l : Leg) : Leg := { l with lastMark := 0, lastMarkTs := 0 }

@[simp] theorem eraseMark_state (l : Leg) : l.eraseMark.state = l.state := rfl
@[simp] theorem eraseMark_filled (l : Leg) : l.eraseMark.filled = l.filled := rfl
@[simp] theorem eraseMark_quotedMark (l : Leg) (market : MarketView) :
    l.eraseMark.quotedMark market = l.quotedMark market := rfl

/-- A leg without a mark is its own erasure. -/
theorem eraseMark_of_markOf {l : Leg} (h : Portfolio.markOf l = (0, 0)) : l.eraseMark = l := by
  obtain ⟨instrument, qty, state, entry, entryTs, exit, exitTs, lastMark, lastMarkTs, settled⟩ := l
  obtain ⟨rfl, rfl⟩ := Prod.mk.inj h
  rfl

/-- Without a mark a leg that is held falls back on what it was bought for. -/
theorem eraseMark_carriedMark {l : Leg} (hlive : l.live = true) : l.eraseMark.carriedMark = l.entry :=
  (carriedMark_of_live (l := l.eraseMark) hlive (le_refl 0)).trans (if_neg (fun h => h rfl))

/-- The leg is worth the same without its mark, if anything of it is held. -/
def Valued (market : MarketView) (l : Leg) : Prop :=
  l.live = true → l.eraseMark.markFor market = l.markFor market

/-- What is quoted needs no mark. -/
theorem valued_of_quoted {l : Leg} {market : MarketView} {m : Price} (h : l.quotedMark market = some m) :
    l.Valued market := by
  intro _
  rw [markFor_eq, markFor_eq, eraseMark_quotedMark, h]
  rfl

/-- A leg that carries no mark has none to lose. -/
theorem valued_of_unmarked {l : Leg} {market : MarketView} (h : l.eraseMark = l) : l.Valued market := by
  intro _
  rw [h]

/-- A leg that has filled is held until it is closed. -/
theorem live_of_filled {l : Leg} (hfilled : l.filled = true) (hclosed : l.state ≠ .Closed) : l.live = true := by
  cases hst : l.state <;> simp_all [live, filled]

/-- A leg that is worth the same earns the same; a closed one is valued at its exit. -/
theorem Valued.pnl {l : Leg} {market : MarketView} (h : l.Valued market) : l.eraseMark.pnl market = l.pnl market := by
  unfold Leg.pnl
  rw [eraseMark_filled, eraseMark_state]
  by_cases hfilled : l.filled = true
  · by_cases hclosed : l.state = .Closed
    · rw [if_pos hclosed, if_pos hclosed]
      rfl
    · rw [if_neg hclosed, if_neg hclosed, h (live_of_filled hfilled hclosed)]
      rfl
  · simp [hfilled]

theorem Valued.pnlPct {F : Type} [Double F] {l : Leg} {market : MarketView} (h : l.Valued market) :
    (l.eraseMark.pnlPct market : F) = l.pnlPct market := by
  unfold Leg.pnlPct
  rw [h.pnl]
  rfl

end Leg

namespace Position

/-- The position as if no mark had ever been taken. -/
def eraseMarks (p : Position) : Position := { p with legs := p.legs.map Leg.eraseMark }

theorem eraseMarks_legs (p : Position) : p.eraseMarks.legs = p.legs.map Leg.eraseMark := rfl

/-- The states of the legs are read, not their marks. -/
@[simp] theorem eraseMarks_isOpen (p : Position) : p.eraseMarks.isOpen = p.isOpen := by
  unfold isOpen
  rw [eraseMarks_legs, List.any_map]
  rfl

@[simp] theorem eraseMarks_established (p : Position) : p.eraseMarks.established = p.established := by
  unfold established
  rw [eraseMarks_legs, List.all_map, List.any_map]
  rfl

/-- The entry of a position is not read off its marks. -/
theorem eraseMarks_entryNotional (p : Position) : p.eraseMarks.entryNotional = p.entryNotional := by
  unfold entryNotional
  rw [eraseMarks_legs, List.map_map]
  rfl

/-- A position earns the same if each of its legs is worth the same. -/
theorem eraseMarks_pnl {p : Position} {market : MarketView} (h : ∀ l ∈ p.legs, l.Valued market) :
    p.eraseMarks.pnl market = p.pnl market := by
  unfold pnl
  rw [eraseMarks_legs, List.map_map]
  exact congrArg List.sum (List.map_congr_left fun l hl => (h l hl).pnl)

theorem eraseMarks_pnlPct {F : Type} [Double F] {p : Position} {market : MarketView}
    (h : ∀ l ∈ p.legs, l.Valued market) : (p.eraseMarks.pnlPct market : F) = p.pnlPct market := by
  unfold pnlPct
  rw [eraseMarks_established, eraseMarks_entryNotional, eraseMarks_pnl h]

end Position

variable {F : Type}

namespace Portfolio

/-! ## Portfolios

`eraseMarks` is a homomorphism: an operation on the erasure succeeds exactly when the operation on the portfolio
does, with the erasure of its result. -/

/-- The portfolio as if no mark had ever been taken. -/
def eraseMarks (p : Portfolio F) : Portfolio F := { p with positions := p.positions.map Position.eraseMarks }

theorem eraseMarks_positions (p : Portfolio F) : p.eraseMarks.positions = p.positions.map Position.eraseMarks := rfl
@[simp] theorem eraseMarks_pending (p : Portfolio F) : p.eraseMarks.pending = p.pending := rfl
@[simp] theorem eraseMarks_rules (p : Portfolio F) : p.eraseMarks.rules = p.rules := rfl
@[simp] theorem eraseMarks_fills (p : Portfolio F) : p.eraseMarks.fills = p.fills := rfl
@[simp] theorem eraseMarks_drained (p : Portfolio F) :
    ({ p with pending := [] } : Portfolio F).eraseMarks = { p.eraseMarks with pending := [] } := rfl

/-- The legs of the erasure are the erased legs. -/
theorem leg?_eraseMarks (p : Portfolio F) (id : PositionId) (i : Nat) :
    p.eraseMarks.leg? id i = (p.leg? id i).map Leg.eraseMark := by
  unfold leg?
  rw [eraseMarks_positions, List.getElem?_map]
  cases p.positions[id]? with
  | none => rfl
  | some pos => exact List.getElem?_map

/-- A position is found in the erasure exactly when it is found in the portfolio. -/
theorem atId_eraseMarks (p : Portfolio F) (id : PositionId) :
    p.eraseMarks.atId id = Position.eraseMarks <$> p.atId id := by
  unfold atId
  rw [eraseMarks_positions, List.getElem?_map]
  cases p.positions[id]? <;> rfl

/-- A change of one entry that commutes with the map commutes with the list. -/
theorem map_modify {α : Type} {f g : α → α} (h : ∀ a, f (g a) = g (f a)) (xs : List α) (i : Nat) :
    (xs.modify i g).map f = (xs.map f).modify i g := by
  refine List.ext_getElem? fun j => ?_
  rw [List.getElem?_map, List.getElem?_modify, List.getElem?_modify, List.getElem?_map]
  cases xs[j]? with
  | none => rfl
  | some a =>
      show some (f (if i = j then g a else a)) = some (if i = j then g (f a) else f a)
      split_ifs
      · rw [h]
      · rfl

/-- A change of one leg commutes with the erasure if it does so on legs. -/
theorem modifyLeg_eraseMarks (p : Portfolio F) (id : PositionId) (i : Nat) {f : Leg → Leg}
    (hf : ∀ l, (f l).eraseMark = f l.eraseMark) : (p.modifyLeg id i f).eraseMarks = p.eraseMarks.modifyLeg id i f := by
  unfold modifyLeg eraseMarks
  dsimp only
  rw [map_modify (fun pos => ?_)]
  unfold Position.eraseMarks
  dsimp only
  rw [map_modify hf]

/-- Setting the state of a leg leaves its mark. -/
theorem setState_eraseMarks (p : Portfolio F) (id : PositionId) (i : Nat) (st : LegState) :
    (p.setState id i st).eraseMarks = p.eraseMarks.setState id i st :=
  p.modifyLeg_eraseMarks id i (fun _ => rfl)

theorem submit_eraseMarks (p : Portfolio F) (o : PendingOrder) : (p.submit o).eraseMarks = p.eraseMarks.submit o := rfl

theorem countCancelled_eraseMarks (p : Portfolio F) (o : PendingOrder) :
    (p.countCancelled o).eraseMarks = p.eraseMarks.countCancelled o := rfl

/-! ### Opening -/

/-- A new leg carries no mark. -/
theorem openLeg_eraseMarks (id : PositionId) (side : Side) (qty : Qty) (now : Timestamp) (p : Portfolio F)
    (inst : InstrumentId) : (openLeg id side qty now p inst).eraseMarks = openLeg id side qty now p.eraseMarks inst := by
  unfold openLeg
  have hindex : (p.eraseMarks.positions[id]?).map (fun pos => pos.legs.length) =
      (p.positions[id]?).map (fun pos => pos.legs.length) := by
    rw [eraseMarks_positions, List.getElem?_map, Option.map_map]
    refine congrArg (fun k => p.positions[id]?.map k) (funext fun pos => ?_)
    exact List.length_map Leg.eraseMark
  dsimp only
  rw [hindex, submit_eraseMarks]
  refine congrArg (fun q : Portfolio F => q.submit _) ?_
  unfold eraseMarks
  dsimp only
  rw [map_modify (fun pos => ?_)]
  unfold Position.eraseMarks
  dsimp only
  rw [List.map_append]
  rfl

/-- Opening a position commutes, and gives it the same number. -/
theorem submitOpen_eraseMarks (p : Portfolio F) (label : String) (instruments : List InstrumentId) (side : Side)
    (qty : Qty) (now : Timestamp) :
    p.eraseMarks.submitOpen label instruments side qty now =
      (fun x => (x.1.eraseMarks, x.2)) <$> p.submitOpen label instruments side qty now := by
  unfold submitOpen
  rw [eraseMarks_positions, List.length_map]
  split_ifs
  · rfl
  · rfl
  · have hstart : ({ p with positions := p.positions ++ [{ id := p.positions.length, label := label }] } :
        Portfolio F).eraseMarks = { p.eraseMarks with
          positions := p.positions.map Position.eraseMarks ++ [{ id := p.positions.length, label := label }] } := by
      unfold eraseMarks
      dsimp only
      rw [List.map_append]
      rfl
    dsimp only
    rw [← hstart, List.foldl_hom eraseMarks fun q inst => (openLeg_eraseMarks _ side qty now q inst).symm]
    rfl

/-! ### Closing

The marks of a leg are not among what `submitClose` reads: its two loops commute step by step. -/

/-- Closing a leg reads its state and its quantity. -/
theorem submitCloseLeg_eraseMarks (p : Portfolio F) (id : PositionId) (i : Nat) (now : Timestamp) :
    p.eraseMarks.submitCloseLeg id i now = eraseMarks <$> p.submitCloseLeg id i now := by
  unfold submitCloseLeg
  rw [atId_eraseMarks]
  cases p.atId id with
  | error err => rfl
  | ok pos =>
      have hlegs : pos.eraseMarks.legs[i]? = pos.legs[i]?.map Leg.eraseMark := List.getElem?_map
      rw [show Position.eraseMarks <$> Except.ok pos = (Except.ok pos.eraseMarks : Except Error Position) from rfl]
      dsimp only [bind, Except.bind]
      rw [hlegs]
      cases pos.legs[i]? with
      | none => rfl
      | some leg =>
          rw [Option.map_some]
          dsimp only
          by_cases hopen : leg.state ≠ .Open
          · rw [if_pos hopen, if_pos (show leg.eraseMark.state ≠ .Open from hopen)]
            rfl
          · rw [if_neg hopen, if_neg (show ¬ leg.eraseMark.state ≠ .Open from hopen)]
            show Except.ok _ = Except.ok _
            rw [submit_eraseMarks, setState_eraseMarks]
            rfl

theorem cancelOpening_eraseMarks (id : PositionId) (p : Portfolio F) (o : PendingOrder) :
    cancelOpening id p.eraseMarks o = (cancelOpening id p o).eraseMarks := by
  unfold cancelOpening
  split_ifs
  · rw [countCancelled_eraseMarks, setState_eraseMarks]
  · rfl

theorem closeIfOpen_eraseMarks (id : PositionId) (now : Timestamp) (p : Portfolio F) (i : Nat) :
    closeIfOpen id now p.eraseMarks i = eraseMarks <$> closeIfOpen id now p i := by
  unfold closeIfOpen
  rw [leg?_eraseMarks]
  cases p.leg? id i with
  | none => rfl
  | some leg =>
      rw [Option.map_some]
      dsimp only
      by_cases hopen : leg.state = .Open
      · rw [if_pos hopen, if_pos (show leg.eraseMark.state = .Open from hopen)]
        exact submitCloseLeg_eraseMarks p id i now
      · rw [if_neg hopen, if_neg (show ¬ leg.eraseMark.state = .Open from hopen)]
        rfl

/-- Closing a position commutes, through both of its loops. -/
theorem submitClose_eraseMarks (p : Portfolio F) (id : PositionId) (now : Timestamp) :
    p.eraseMarks.submitClose id now = eraseMarks <$> p.submitClose id now := by
  unfold submitClose
  rw [atId_eraseMarks]
  cases p.atId id with
  | error err => rfl
  | ok pos =>
      rw [Run.ok_bind, Except.map_ok, Run.ok_bind]
      rw [eraseMarks_pending, ← eraseMarks_drained, List.foldl_hom eraseMarks (cancelOpening_eraseMarks id),
        Position.eraseMarks_legs, List.length_map]
      exact Run.foldlM_commutes eraseMarks (fun _ => True) (fun q i _ => closeIfOpen_eraseMarks id now q i)
        (fun _ _ _ _ _ => trivial) trivial

/-! ### Fills

A fill writes the entry or the exit of its leg and books the gain between them. -/

/-- An execution reads the entry and the quantity of its leg; what it realizes is the same. -/
theorem execute_eraseMarks (p : Portfolio F) (o : PendingOrder) (price : Price) (now : Timestamp) :
    (p.execute o price now).eraseMarks = p.eraseMarks.execute o price now := by
  unfold execute
  cases o.closing with
  | false => exact p.modifyLeg_eraseMarks _ _ (fun _ => rfl)
  | true =>
      simp only [if_true]
      have hgain : ((p.eraseMarks.leg? o.position o.legIndex).map
          (fun leg => notional price leg.qty - notional leg.entry leg.qty)) =
          (p.leg? o.position o.legIndex).map (fun leg => notional price leg.qty - notional leg.entry leg.qty) := by
        rw [leg?_eraseMarks, Option.map_map]
        rfl
      rw [hgain]
      have hleg := p.modifyLeg_eraseMarks o.position o.legIndex
        (f := fun leg => { leg with exit := price, exitTs := now, state := .Closed }) (fun _ => rfl)
      generalize ((p.leg? o.position o.legIndex).map
        (fun leg => notional price leg.qty - notional leg.entry leg.qty)).getD 0 = gain
      exact congrArg (fun q : Portfolio F => { q with realized := p.realized + gain }) hleg

variable [Double F]

/-- The trade an order is booked as reads no mark. -/
theorem fillOrder_eraseMarks (p : Portfolio F) (spec : InstrumentSpec) (o : PendingOrder) (q : Quote) (price : Price)
    (now : Timestamp) : (p.fillOrder spec o q price now).eraseMarks = p.eraseMarks.fillOrder spec o q price now := by
  unfold fillOrder
  rw [← execute_eraseMarks]
  rfl

/-- What the pass over the queue does with one order commutes. -/
theorem processOrder_eraseMarks (market : MarketView) (p : Portfolio F) (o : PendingOrder) :
    processOrder market p.eraseMarks o = eraseMarks <$> processOrder market p o := by
  unfold processOrder
  rw [eraseMarks_fills]
  split
  · rfl
  · next q price _ =>
      cases market.registry.spec o.instrument with
      | error err => rfl
      | ok spec => exact congrArg Except.ok (fillOrder_eraseMarks p spec o q price market.now).symm

/-- **A pass over the queue** commutes with the erasure. -/
theorem processPending_eraseMarks (p : Portfolio F) (market : MarketView) :
    p.eraseMarks.processPending market = eraseMarks <$> p.processPending market := by
  unfold processPending
  rw [eraseMarks_pending, ← eraseMarks_drained]
  exact Run.foldlM_commutes eraseMarks (fun _ => True) (fun q o _ => processOrder_eraseMarks market q o)
    (fun _ _ _ _ _ => trivial) trivial

/-! ### Rules

Attaching a rule reads no leg. Processing one reads what its leg or position earns, so `Valued` is assumed. -/

/-- A stop is attached to what is there, whatever it is worth. -/
theorem attachStopLoss_eraseMarks (p : Portfolio F) (id : PositionId) (leg : Option Nat) (pct : F) :
    p.eraseMarks.attachStopLoss id leg pct = eraseMarks <$> p.attachStopLoss id leg pct := by
  unfold attachStopLoss
  rw [atId_eraseMarks]
  split_ifs
  · rfl
  · cases p.atId id <;> rfl

theorem attachTakeProfit_eraseMarks (p : Portfolio F) (id : PositionId) (leg : Option Nat) (pct : F) :
    p.eraseMarks.attachTakeProfit id leg pct = eraseMarks <$> p.attachTakeProfit id leg pct := by
  unfold attachTakeProfit
  rw [atId_eraseMarks]
  split_ifs
  · rfl
  · cases p.atId id <;> rfl

theorem attachExitAt_eraseMarks (p : Portfolio F) (id : PositionId) (leg : Option Nat) (when_ : Timestamp) :
    p.eraseMarks.attachExitAt id leg when_ = eraseMarks <$> p.attachExitAt id leg when_ := by
  unfold attachExitAt
  rw [atId_eraseMarks]
  cases p.atId id <;> rfl

/-- Every live leg is worth the same without its mark. -/
def Valued (market : MarketView) (p : Portfolio F) : Prop := ∀ id i leg, p.leg? id i = some leg → leg.Valued market

omit [Double F] in
/-- The legs of a position of such a portfolio. -/
theorem Valued.position {market : MarketView} {p : Portfolio F} (h : p.Valued market) {id : PositionId} {pos : Position}
    (hpos : p.positions[id]? = some pos) : ∀ l ∈ pos.legs, l.Valued market := by
  intro l hl
  obtain ⟨i, hi⟩ := List.mem_iff_getElem?.mp hl
  exact h id i l (leg?_eq_some.mpr ⟨pos, hpos, hi⟩)

/-- A rule is triggered by what its leg or its position earns, which is the same. -/
theorem triggered_eraseMarks {market : MarketView} (rule : RiskRule F) {pos : Position}
    (h : ∀ l ∈ pos.legs, l.Valued market) : triggered rule pos.eraseMarks market = triggered rule pos market := by
  unfold triggered
  cases rule.leg with
  | none => rw [Position.eraseMarks_pnlPct h]
  | some i =>
      dsimp only
      rw [Position.eraseMarks_legs, List.getElem?_map]
      cases hleg : pos.legs[i]? with
      | none => rfl
      | some l => rw [Option.map_some, Option.map_some, Option.map_some, (h l (List.mem_of_getElem? hleg)).pnlPct]

omit [Double F] in
/-- A rule that fires submits the same exits. -/
theorem fireRule_eraseMarks (p : Portfolio F) (k : Nat) (rule : RiskRule F) (now : Timestamp) :
    p.eraseMarks.fireRule k rule now = eraseMarks <$> p.fireRule k rule now := by
  have hclose : (p.eraseMarks.startRule k).closeScope rule now = eraseMarks <$> (p.startRule k).closeScope rule now := by
    unfold closeScope
    cases rule.leg with
    | none => exact submitClose_eraseMarks (p.startRule k) rule.position now
    | some i => exact submitCloseLeg_eraseMarks (p.startRule k) rule.position i now
  unfold fireRule
  rw [hclose]
  cases (p.startRule k).closeScope rule now <;> rfl

/-- **The rules** do the same with and without marks, as long as what is held is worth the same. -/
theorem processRule_eraseMarks {market : MarketView} {p : Portfolio F} (h : p.Valued market) (k : Nat) :
    processRule market p.eraseMarks k = eraseMarks <$> processRule market p k := by
  unfold processRule
  rw [eraseMarks_rules]
  cases p.rules[k]? with
  | none => rfl
  | some rule =>
      dsimp only
      rw [atId_eraseMarks]
      by_cases hfired : rule.fired = true
      · rw [if_pos hfired, if_pos hfired]
        rfl
      rw [if_neg hfired, if_neg hfired]
      cases hat : p.atId rule.position with
      | error err => rfl
      | ok pos =>
          have htrig := triggered_eraseMarks rule (h.position (atId_eq_ok.mp hat))
          rw [Except.map_ok, Run.ok_bind, Run.ok_bind, Position.eraseMarks_isOpen, Position.eraseMarks_established, htrig,
            Position.eraseMarks_legs]
          by_cases hopen : (!pos.isOpen) = true
          · rw [if_pos hopen, if_pos hopen]
            rfl
          rw [if_neg hopen, if_neg hopen]
          cases rule.leg with
          | none =>
              dsimp only
              split_ifs
              · rfl
              · rfl
              · exact fireRule_eraseMarks p k rule market.now
          | some i =>
              dsimp only
              rw [List.getElem?_map]
              cases pos.legs[i]? with
              | none => rfl
              | some leg =>
                  rw [Option.map_some]
                  dsimp only
                  by_cases hst : leg.state ≠ .Open
                  · rw [if_pos hst, if_pos (show leg.eraseMark.state ≠ .Open from hst)]
                    rfl
                  rw [if_neg hst, if_neg (show ¬ leg.eraseMark.state ≠ .Open from hst)]
                  split_ifs
                  · rfl
                  · exact fireRule_eraseMarks p k rule market.now

/-! ### Worth the same

`Valued` holds right after a refresh, and whatever fills nothing keeps it. For a leg that nothing quotes at the
refresh it holds only if the leg was never marked, which is what `FreshLegs` says of a leg that has not filled. -/

/-- A leg that has not filled carries no mark. -/
def FreshLegs (p : Portfolio F) : Prop := ∀ id i leg, p.leg? id i = some leg → leg.filled = false → markOf leg = (0, 0)

/-- No move marks a leg before it fills, and what has filled stays filled. -/
theorem FreshLegs.moves {c : Scope} {p p' : Portfolio F} (h : FreshLegs p) (hmat : Matched c.expired p) (hm : Moves c p p')
    (hmarks : Keeps markOf p p') : FreshLegs p' := by
  intro id i leg' hleg' hunfilled
  rcases hmarks id i with hsame | ⟨_, hnew⟩
  · rw [hleg', Option.map_some, eq_comm, Option.map_eq_some_iff] at hsame
    obtain ⟨leg, hleg, hmark⟩ := hsame
    rw [← hmark]
    refine h id i leg hleg (Bool.eq_false_iff.mpr fun hfilled => ?_)
    -- what has filled stays filled
    obtain ⟨l', hl', hfilled', _⟩ := hm.holding hmat hleg hfilled
    rw [hleg'] at hl'
    cases hl'
    rw [hunfilled] at hfilled'
    cases hfilled'
  · rw [hleg', Option.map_some, Option.some.injEq] at hnew
    exact hnew

omit [Double F] in
/-- A refresh marks what is held, which has filled. -/
theorem FreshLegs.refresh {p : Portfolio F} (h : FreshLegs p) (market : MarketView) : FreshLegs (p.refreshMarks market) := by
  intro id i leg' hleg' hunfilled
  rw [refreshMarks_leg, Option.map_eq_some_iff] at hleg'
  obtain ⟨leg, hleg, rfl⟩ := hleg'
  cases hmarked : leg.marked market with
  | false =>
      rw [Leg.refreshMark_of_not_marked hmarked] at hunfilled ⊢
      exact h id i leg hleg hunfilled
  | true =>
      have hlive := (Bool.and_eq_true_iff.mp hmarked).1
      rw [← Leg.live_refreshMark market] at hlive
      rw [Leg.filled_of_live hlive] at hunfilled
      cases hunfilled

/-- The value of a leg that is held is read off what is held and what is carried. -/
theorem valued_congr {market : MarketView} {l l' : Leg} (h : l.Valued market) (hlive : l.live = true)
    (hholds : holdingOf l' = holdingOf l) (hmarks : markOf l' = markOf l) : l'.Valued market := by
  intro hlive'
  obtain ⟨hinst, hrest⟩ := Prod.mk.inj hholds
  obtain ⟨hqty, hentry⟩ := Prod.mk.inj hrest
  obtain ⟨hlast, hlastTs⟩ := Prod.mk.inj hmarks
  have hquoted : l'.quotedMark market = l.quotedMark market := by
    unfold Leg.quotedMark
    rw [hinst, hqty]
  have hcarried : l'.carriedMark = l.carriedMark := by
    unfold Leg.carriedMark
    rw [hlast, hlastTs, hentry, Leg.filled_of_live hlive, Leg.filled_of_live hlive']
  have herased : l'.eraseMark.carriedMark = l.eraseMark.carriedMark := by
    rw [Leg.eraseMark_carriedMark hlive, Leg.eraseMark_carriedMark hlive', hentry]
  have h := h hlive
  rw [Leg.markFor_eq, Leg.markFor_eq, Leg.eraseMark_quotedMark] at h ⊢
  rw [hquoted, hcarried, herased]
  exact h

/-- What fills nothing and writes no marks leaves the values as they are. -/
theorem Valued.moves {c : Scope} {market : MarketView} {p p' : Portfolio F} (h : p.Valued market)
    (hquiet : ∀ id, ¬ c.traded id) (hmat : Matched c.expired p) (hm : Moves c p p') (hmarks : Keeps markOf p p') :
    p'.Valued market := by
  intro id i leg' hleg' hlive'
  obtain ⟨leg, hleg, hlive, _⟩ := hm.heldFrom hquiet hmat id i leg' hleg' hlive'
  obtain ⟨l', hl', _, hholds⟩ := hm.holding hmat hleg (Leg.filled_of_live hlive)
  obtain ⟨l'', hl'', hmark⟩ := hmarks.leg hleg
  rw [hleg'] at hl' hl''
  cases hl'
  cases hl''
  exact valued_congr (h id i leg hleg) hlive hholds hmark hlive'

/-- The rules and the strategy leave the values as they are. -/
theorem Valued.quiet {now : Timestamp} {market : MarketView} {p p' : Portfolio F} (h : p.Valued market)
    (hmat : Matched noneExpired p) (hquiet : Quiet now p p') (hmarks : Keeps markOf p p') : p'.Valued market :=
  h.moves (c := stillScope now) (fun _ ⟨_, hq⟩ => by cases hq) hmat hquiet.moves hmarks

omit [Double F] in
/-- **After a refresh** every leg that is quoted or carried no mark is worth the same without it. -/
theorem valued_refresh {market : MarketView} {p : Portfolio F}
    (h : ∀ id i leg, p.leg? id i = some leg → leg.live = true →
      (leg.quotedMark market).isSome = true ∨ markOf leg = (0, 0)) : (p.refreshMarks market).Valued market := by
  intro id i leg' hleg' hlive'
  rw [refreshMarks_leg, Option.map_eq_some_iff] at hleg'
  obtain ⟨leg, hleg, rfl⟩ := hleg'
  have hlive : leg.live = true := Leg.live_refreshMark market leg ▸ hlive'
  cases hm : leg.quotedMark market with
  | some m =>
      rw [Leg.refreshMark_of_marked hlive hm] at hlive' ⊢
      exact Leg.valued_of_quoted (l := { leg with lastMark := m, lastMarkTs := market.now }) hm hlive'
  | none =>
      have hunmarked := (h id i leg hleg hlive).resolve_left (by simp [hm])
      rw [Leg.refreshMark_of_not_marked (by simp [Leg.marked, hm])] at hlive' ⊢
      exact Leg.valued_of_unmarked (Leg.eraseMark_of_markOf hunmarked) hlive'

omit [Double F] in
/-- A refresh writes nothing but marks. -/
theorem refreshMarks_eraseMarks (p : Portfolio F) (market : MarketView) :
    (p.refreshMarks market).eraseMarks = p.eraseMarks := by
  have hleg : ∀ l, (refreshMark market l).eraseMark = l.eraseMark := by
    intro l
    obtain ⟨m, t, heq⟩ := refreshMark_eq market l
    rw [heq]
    rfl
  unfold eraseMarks refreshMarks
  dsimp only
  rw [List.map_map]
  refine congrArg (fun ps => { p with positions := ps }) (List.map_congr_left fun pos _ => ?_)
  unfold Position.eraseMarks
  simp only [Function.comp_apply, List.map_map]
  exact congrArg (fun ls => { pos with legs := ls }) (List.map_congr_left fun l _ => hleg l)

/-- **The loop over the rules** commutes: no rule changes what the next one sees a leg to be worth. -/
theorem processRiskRules_eraseMarks {market : MarketView} {p : Portfolio F} (h : p.Valued market)
    (hmat : Matched noneExpired p) :
    p.eraseMarks.processRiskRules market = eraseMarks <$> p.processRiskRules market := by
  refine Run.foldlM_commutes eraseMarks (fun q => Matched noneExpired q ∧ q.Valued market)
    (fun q k hq => processRule_eraseMarks hq.2 k) ?_ ⟨hmat, h⟩
  rintro q k q' ⟨hqmat, hq⟩ hstep
  have hm : Moves (stillScope market.now) q q' := processRule_moves (fun hno => hno) rfl hstep
  exact ⟨hqmat.moves hm, hq.moves (fun _ ⟨_, hq⟩ => by cases hq) hqmat hm (processRule_marks hstep)⟩

end Portfolio

end Volforge
