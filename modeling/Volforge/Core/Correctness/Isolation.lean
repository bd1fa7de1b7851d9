import Volforge.Core.Correctness.Mirrors

/-!
# `Core.Correctness.Isolation` — positions do not interfere

Two runs of a portfolio: over a sequence of operations, and over what `alone k` leaves of it. The operations
addressed to other positions are deleted, those addressed to position `k` are renumbered, and those of the
whole portfolio are kept. The states stay in the relation `Mirrors` all along.

## Contents
- **Risk rules.** The loop over the rules: the turns about position `k` are those of the loop over its share.
- **Sequences.** What an operation becomes, one lemma for the operations that are kept and one for those that
  are deleted, and `positions_do_not_interfere`.
-/

namespace Volforge

variable {F : Type} [Double F]

namespace Portfolio

variable {k : PositionId} {p q : Portfolio F}

/-! ## Risk rules -/

/-- The number of rules of position `k` before the `j`-th one. -/
def rank (k : PositionId) (rules : List (RiskRule F)) (j : Nat) : Nat :=
  ((rules.take j).map (·.position)).count k

omit [Double F] in
theorem length_share (k : PositionId) (rules : List (RiskRule F)) :
    (rules.filterMap (·.share k)).length = (rules.map (·.position)).count k := by
  induction rules with
  | nil => rfl
  | cons r rules ih =>
      by_cases hk : r.position = k
      · rw [List.filterMap_cons_some (show r.share k = some _ from if_pos hk), List.length_cons, ih, List.map_cons,
          hk, List.count_cons_self]
      · rw [List.filterMap_cons_none (show r.share k = none from if_neg hk), ih, List.map_cons,
          List.count_cons_of_ne hk]

omit [Double F] in
/-- The `j`-th rule, when it is one of position `k`, stands in its share at its rank. -/
theorem getElem?_share {rules : List (RiskRule F)} {j : Nat} {rule r : RiskRule F} (hj : rules[j]? = some rule)
    (hr : rule.share k = some r) : (rules.filterMap (·.share k))[rank k rules j]? = some r := by
  induction rules generalizing j with
  | nil => cases hj
  | cons head rules ih =>
      cases j with
      | zero =>
          cases hj
          rw [List.filterMap_cons_some hr]
          rfl
      | succ j =>
          have hrest := ih hj
          unfold rank at hrest ⊢
          rw [List.take_succ_cons, List.map_cons]
          by_cases hk : head.position = k
          · rw [List.filterMap_cons_some (show head.share k = some _ from if_pos hk), hk, List.count_cons_self]
            exact hrest
          · rw [List.filterMap_cons_none (show head.share k = none from if_neg hk), List.count_cons_of_ne hk]
            exact hrest

omit [Double F] in
/-- A write to the `j`-th rule, when it is one of position `k`, is one to its share at its rank. -/
theorem modify_share {g : RiskRule F → RiskRule F} (hg : ∀ r : RiskRule F, (g r).share k = (r.share k).map g)
    {rules : List (RiskRule F)} {j : Nat} {rule : RiskRule F} (hj : rules[j]? = some rule) (hk : rule.position = k) :
    (rules.modify j g).filterMap (·.share k) = (rules.filterMap (·.share k)).modify (rank k rules j) g := by
  induction rules generalizing j with
  | nil => cases hj
  | cons head rules ih =>
      cases j with
      | zero =>
          cases hj
          have hshare : rule.share k = some { rule with position := 0 } := if_pos hk
          have hshare' : (g rule).share k = some (g { rule with position := 0 }) := by rw [hg, hshare]; rfl
          rw [List.modify_zero_cons, List.filterMap_cons_some hshare, List.filterMap_cons_some hshare']
          rfl
      | succ j =>
          have hrest := ih hj
          unfold rank at hrest ⊢
          rw [List.modify_succ_cons, List.take_succ_cons, List.map_cons]
          by_cases hhead : head.position = k
          · rw [List.filterMap_cons_some (show head.share k = some _ from if_pos hhead),
              List.filterMap_cons_some (show head.share k = some _ from if_pos hhead), hhead, List.count_cons_self,
              List.modify_succ_cons, hrest]
          · rw [List.filterMap_cons_none (show head.share k = none from if_neg hhead),
              List.filterMap_cons_none (show head.share k = none from if_neg hhead), List.count_cons_of_ne hhead, hrest]

omit [Double F] in
/-- A write to a rule of another position leaves the share alone. -/
theorem modify_share_other {g : RiskRule F → RiskRule F} (hg : ∀ r : RiskRule F, (g r).share k = (r.share k).map g)
    {rules : List (RiskRule F)} {j : Nat} {rule : RiskRule F} (hj : rules[j]? = some rule) (hk : rule.position ≠ k) :
    (rules.modify j g).filterMap (·.share k) = rules.filterMap (·.share k) := by
  induction rules generalizing j with
  | nil => cases hj
  | cons head rules ih =>
      cases j with
      | zero =>
          cases hj
          have hshare : rule.share k = none := if_neg hk
          have hshare' : (g rule).share k = none := by rw [hg, hshare]; rfl
          rw [List.modify_zero_cons, List.filterMap_cons_none hshare, List.filterMap_cons_none hshare']
      | succ j =>
          rw [List.modify_succ_cons, List.filterMap_cons, List.filterMap_cons, ih hj]

omit [Double F] in
theorem fired_share (r : RiskRule F) :
    RiskRule.share k { r with fired := true } = (r.share k).map (fun r => { r with fired := true }) := by
  unfold RiskRule.share
  dsimp only
  split_ifs <;> rfl

omit [Double F] in
theorem Mirrors.setFired (h : Mirrors k p q) {j : Nat} {rule : RiskRule F} (hj : p.rules[j]? = some rule)
    (hk : rule.position = k) : Mirrors k (p.setFired j) (q.setFired (rank k p.rules j)) :=
  { h with
    rules := by
      show (p.rules.modify j _).filterMap _ = q.rules.modify _ _
      rw [modify_share fired_share hj hk, h.rules] }

omit [Double F] in
theorem Mirrors.setFired_other (h : Mirrors k p q) {j : Nat} {rule : RiskRule F} (hj : p.rules[j]? = some rule)
    (hk : rule.position ≠ k) : Mirrors k (p.setFired j) q :=
  { h with
    rules := by
      show (p.rules.modify j _).filterMap _ = q.rules
      rw [modify_share_other fired_share hj hk, h.rules] }

omit [Double F] in
/-- The places of the rules are fixed while the loop runs. -/
theorem setFired_positions (p : Portfolio F) (j : Nat) :
    (p.setFired j).rules.map (·.position) = p.rules.map (·.position) := by
  show (p.rules.modify j _).map _ = _
  refine List.ext_getElem? (fun i => ?_)
  rw [List.getElem?_map, List.getElem?_map, List.getElem?_modify]
  cases p.rules[i]? with
  | none => rfl
  | some r =>
      by_cases hij : j = i
      · simp [hij]
      · simp [hij]

/-- What a rule looks at, on two positions with the same legs. -/
theorem triggered_congr {pos pos' : Position} (h : pos'.legs = pos.legs) (rule : RiskRule F) (id : PositionId)
    (market : MarketView) : triggered { rule with position := id } pos' market = triggered rule pos market := by
  unfold triggered Position.pnlPct Position.pnl Position.entryNotional Position.established
  rw [h]

omit [Double F] in
theorem closeScope_frame {rule : RiskRule F} {now : Timestamp} {p' : Portfolio F}
    (h : p.closeScope rule now = .ok p') : OrderFrame p p' := by
  unfold closeScope at h
  split at h
  · exact submitCloseLeg_frame h
  · exact submitClose_frame h

omit [Double F] in
theorem Mirrors.fireRule (h : Mirrors k p q) {j : Nat} {rule : RiskRule F} (hj : p.rules[j]? = some rule)
    (hk : rule.position = k) {now : Timestamp} {p' : Portfolio F} (hop : p.fireRule j rule now = .ok p') :
    ∃ q', q.fireRule (rank k p.rules j) { rule with position := 0 } now = .ok q' ∧ Mirrors k p' q' := by
  obtain ⟨p₁, hclose, rfl⟩ := fireRule_eq_ok.mp hop
  have hstart : Mirrors k (p.startRule j) (q.startRule (rank k p.rules j)) := { h.setFired hj hk with }
  have hdone : ∃ q₁, (q.startRule (rank k p.rules j)).closeScope { rule with position := 0 } now = .ok q₁ ∧
      Mirrors k p₁ q₁ := by
    unfold closeScope at hclose ⊢
    rw [hk] at hclose
    dsimp only
    cases hleg : rule.leg with
    | none =>
        rw [hleg] at hclose
        exact hstart.submitClose rfl hclose
    | some i =>
        rw [hleg] at hclose
        exact hstart.submitCloseLeg rfl hclose
  obtain ⟨q₁, hq₁, hm⟩ := hdone
  exact ⟨_, fireRule_eq_ok.mpr ⟨q₁, hq₁, rfl⟩, { hm with }⟩

omit [Double F] in
theorem Mirrors.fireRule_other (h : Mirrors k p q) {j : Nat} {rule : RiskRule F} (hj : p.rules[j]? = some rule)
    (hk : rule.position ≠ k) {now : Timestamp} {p' : Portfolio F} (hop : p.fireRule j rule now = .ok p') :
    Mirrors k p' q := by
  obtain ⟨p₁, hclose, rfl⟩ := fireRule_eq_ok.mp hop
  have hstart : Mirrors k (p.startRule j) q := { h.setFired_other hj hk with }
  have hdone : Mirrors k p₁ q := by
    unfold closeScope at hclose
    split at hclose
    · exact hstart.submitCloseLeg_other hk hclose
    · exact hstart.submitClose_other hk hclose
  exact { hdone with }

omit [Double F] in
theorem fireRule_frame {j : Nat} {rule : RiskRule F} {now : Timestamp} {p' : Portfolio F}
    (h : p.fireRule j rule now = .ok p') : p'.closingFromRule = false ∧
      p'.rules.map (·.position) = p.rules.map (·.position) ∧ p'.positions.length = p.positions.length := by
  obtain ⟨p₁, hclose, rfl⟩ := fireRule_eq_ok.mp h
  have hframe := closeScope_frame hclose
  refine ⟨rfl, ?_, hframe.length⟩
  show p₁.rules.map _ = _
  rw [hframe.rules]
  exact setFired_positions p j

/-- What stays fixed while the loop over the rules runs. -/
theorem processRule_frame {market : MarketView} {j : Nat} {p' : Portfolio F} (h : processRule market p j = .ok p') :
    (p.closingFromRule = false → p'.closingFromRule = false) ∧
      p'.rules.map (·.position) = p.rules.map (·.position) ∧ p'.positions.length = p.positions.length := by
  rcases processRule_cases h with rfl | ⟨_, _, _, _, _, ⟨rfl, _⟩ | ⟨_, _, hfire⟩⟩
  · exact ⟨id, rfl, rfl⟩
  · exact ⟨id, setFired_positions p j, rfl⟩
  · obtain ⟨hflag, hplaces, hlen⟩ := fireRule_frame hfire
    exact ⟨fun _ => hflag, hplaces, hlen⟩

theorem Mirrors.processRule (h : Mirrors k p q) {market : MarketView} {j : Nat} {rule : RiskRule F}
    (hj : p.rules[j]? = some rule) (hk : rule.position = k) {p' : Portfolio F}
    (hop : processRule market p j = .ok p') :
    ∃ q', Portfolio.processRule market q (rank k p.rules j) = .ok q' ∧ Mirrors k p' q' := by
  have hj' : q.rules[rank k p.rules j]? = some { rule with position := 0 } := by
    rw [← h.rules]
    exact getElem?_share hj (if_pos hk)
  unfold Portfolio.processRule at hop ⊢
  rw [hj] at hop
  rw [hj']
  dsimp only at hop ⊢
  split_ifs at hop ⊢ with hfired
  · cases hop
    exact ⟨q, rfl, h⟩
  · obtain ⟨pos, hpos, hop⟩ := Run.bind_eq_ok.mp hop
    rw [hk] at hpos
    -- the two positions have the same legs, so every test of the rule comes out alike
    obtain ⟨pos', hpos', hlegs⟩ := h.atId hpos
    rw [hpos', Run.ok_bind, isOpen_congr hlegs, hlegs, triggered_congr hlegs rule 0 market,
      show pos'.established = pos.established by unfold Position.established; rw [hlegs]]
    by_cases hopen : (!pos.isOpen) = true
    · rw [if_pos hopen] at hop ⊢
      cases hop
      exact ⟨_, rfl, h.setFired hj hk⟩
    · rw [if_neg hopen] at hop ⊢
      cases hleg : rule.leg with
      | none =>
          rw [hleg] at hop
          dsimp only at hop ⊢
          by_cases hest : (!pos.established) = true
          · rw [if_pos hest] at hop ⊢
            cases hop
            exact ⟨q, rfl, h⟩
          · rw [if_neg hest] at hop ⊢
            by_cases htrig : (!triggered rule pos market) = true
            · rw [if_pos htrig] at hop ⊢
              cases hop
              exact ⟨q, rfl, h⟩
            · rw [if_neg htrig] at hop ⊢
              have hfire := h.fireRule hj hk hop
              rw [hleg] at hfire
              exact hfire
      | some i =>
          rw [hleg] at hop
          dsimp only at hop ⊢
          cases hi : pos.legs[i]? with
          | none =>
              rw [hi] at hop
              cases hop
              exact ⟨_, rfl, h.setFired hj hk⟩
          | some leg =>
              rw [hi] at hop
              dsimp only at hop ⊢
              by_cases hst : leg.state ≠ .Open
              · rw [if_pos hst] at hop ⊢
                cases hop
                exact ⟨q, rfl, h⟩
              · rw [if_neg hst] at hop ⊢
                by_cases htrig : (!triggered rule pos market) = true
                · rw [if_pos htrig] at hop ⊢
                  cases hop
                  exact ⟨q, rfl, h⟩
                · rw [if_neg htrig] at hop ⊢
                  have hfire := h.fireRule hj hk hop
                  rw [hleg] at hfire
                  exact hfire

theorem Mirrors.processRule_other (h : Mirrors k p q) {market : MarketView} {j : Nat}
    (hk : ∀ rule, p.rules[j]? = some rule → rule.position ≠ k) {p' : Portfolio F}
    (hop : Portfolio.processRule market p j = .ok p') : Mirrors k p' q := by
  rcases processRule_cases hop with rfl | ⟨rule, _, hj, _, _, ⟨rfl, _⟩ | ⟨_, _, hfire⟩⟩
  · exact h
  · exact h.setFired_other hj (hk rule hj)
  · exact h.fireRule_other hj (hk rule hj) hfire

/-- The turns of the loop over the rules that are about position `k`. -/
def shareIndex (k : PositionId) (positions : List PositionId) (j : Nat) : Option Nat :=
  if positions[j]? = some k then some ((positions.take j).count k) else none

/-- The turns about position `k` are numbered as those of a loop over its rules alone. -/
theorem range_share (k : PositionId) (positions : List PositionId) :
    (List.range positions.length).filterMap (shareIndex k positions) = List.range (positions.count k) := by
  induction positions using List.reverseRecOn with
  | nil => rfl
  | append_singleton positions id ih =>
      have hbefore : (List.range positions.length).filterMap (shareIndex k (positions ++ [id])) =
          (List.range positions.length).filterMap (shareIndex k positions) := by
        refine List.filterMap_congr (fun j hj => ?_)
        have hlt := List.mem_range.mp hj
        unfold shareIndex
        rw [List.getElem?_append_left hlt, List.take_append_of_le_length (le_of_lt hlt)]
      rw [List.length_append, List.length_singleton, List.range_succ, List.filterMap_append, hbefore, ih,
        List.count_append]
      by_cases hid : id = k
      · have hlast : shareIndex k (positions ++ [id]) positions.length = some (positions.count k) := by
          unfold shareIndex
          rw [List.getElem?_concat_length, if_pos (by rw [hid]), List.take_left']
          rfl
        rw [List.filterMap_cons_some hlast, hid, List.count_singleton_self, List.range_succ]
        rfl
      · have hlast : shareIndex k (positions ++ [id]) positions.length = none := by
          unfold shareIndex
          rw [List.getElem?_concat_length, if_neg (fun hc => hid (Option.some.inj hc))]
        rw [List.filterMap_cons_none hlast, List.count_singleton, if_neg (by simpa using hid)]
        simp

/-- Rules neither open positions nor move. -/
theorem processRiskRules_length {market : MarketView} {p' : Portfolio F} (h : p.processRiskRules market = .ok p') :
    p'.positions.length = p.positions.length := by
  refine Run.foldlM_inv (fun q => q.positions.length = p.positions.length) (fun p₁ j p₂ hlen hstep => ?_) _ p p' rfl h
  exact (processRule_frame hstep).2.2.trans hlen

theorem Mirrors.processRiskRules (h : Mirrors k p q) (hflag : p.closingFromRule = false)
    (hflag' : q.closingFromRule = false) {market : MarketView} {p' : Portfolio F}
    (hop : p.processRiskRules market = .ok p') :
    ∃ q', q.processRiskRules market = .ok q' ∧ Mirrors k p' q' ∧ p'.closingFromRule = false ∧
      q'.closingFromRule = false := by
  have hlength : q.rules.length = (p.rules.map (·.position)).count k := by rw [← h.rules, length_share]
  unfold Portfolio.processRiskRules at hop ⊢
  refine Run.foldlM_sim_select
    (fun p' q' => Mirrors k p' q' ∧ p'.closingFromRule = false ∧ q'.closingFromRule = false ∧
      p'.rules.map (·.position) = p.rules.map (·.position))
    (shareIndex k (p.rules.map (·.position))) (fun j => j) ?_ ?_ ?_ ⟨h, hflag, hflag', rfl⟩ hop
    |>.imp fun q' ⟨hq', hm, hp', hq'', _⟩ => ⟨hq', hm, hp', hq''⟩
  · -- a turn about position `k`
    rintro p₁ q₁ j j' p₂ hsel ⟨hm, hp₁, hq₁, hplaces⟩ hstep
    unfold shareIndex at hsel
    split_ifs at hsel with hj
    rw [← hplaces, List.getElem?_map] at hj
    obtain ⟨rule, hrule, hk⟩ := Option.map_eq_some_iff.mp hj
    have hrank : rank k p₁.rules j = j' := by
      unfold rank
      rw [List.map_take, hplaces]
      exact Option.some.inj hsel
    obtain ⟨q₂, hq₂, hm₂⟩ := hm.processRule hrule hk hstep
    rw [hrank] at hq₂
    obtain ⟨hp₂, hplaces₂, _⟩ := processRule_frame hstep
    exact ⟨q₂, hq₂, hm₂, hp₂ hp₁, (processRule_frame hq₂).1 hq₁, hplaces₂.trans hplaces⟩
  · -- a turn about another position
    rintro p₁ q₁ j p₂ hsel ⟨hm, hp₁, hq₁, hplaces⟩ hstep
    have hk : ∀ rule, p₁.rules[j]? = some rule → rule.position ≠ k := by
      intro rule hrule hk
      unfold shareIndex at hsel
      rw [← hplaces, List.getElem?_map, hrule, Option.map_some, hk, if_pos rfl] at hsel
      cases hsel
    obtain ⟨hp₂, hplaces₂, _⟩ := processRule_frame hstep
    exact ⟨hm.processRule_other hk hstep, hp₂ hp₁, hq₁, hplaces₂.trans hplaces⟩
  · have hrange := range_share k (p.rules.map (·.position))
    rw [List.length_map] at hrange
    rw [hrange, hlength, List.map_id']

/-! ## Sequences -/

/-- What is left of an operation when position `k` alone is kept, as number `0`; `n` positions are open so far. -/
def Op.share (k : PositionId) (n : Nat) (op : Op F) : Option (Op F) :=
  match op with
  | .submitOpen label instruments side qty now =>
      if n = k then some (.submitOpen label instruments side qty now) else none
  | .submitClose id now => if id = k then some (.submitClose 0 now) else none
  | .submitCloseLeg id i now => if id = k then some (.submitCloseLeg 0 i now) else none
  | .attachStopLoss id leg pct => if id = k then some (.attachStopLoss 0 leg pct) else none
  | .attachTakeProfit id leg pct => if id = k then some (.attachTakeProfit 0 leg pct) else none
  | .attachExitAt id leg when_ => if id = k then some (.attachExitAt 0 leg when_) else none
  | .processRiskRules market => some (.processRiskRules market)
  | .processPending market => some (.processPending market)
  | .refreshMarks market => some (.refreshMarks market)
  | .settleExpiry market expiry level at_ => some (.settleExpiry market expiry level at_)
  | .cancelWorkingOrders => some .cancelWorkingOrders

/-- The number of positions an operation opens. -/
def Op.opens : Op F → Nat
  | .submitOpen .. => 1
  | _ => 0

/-- The sequence without the operations addressed to positions other than `k`. -/
def alone (k : PositionId) : Nat → List (Op F) → List (Op F)
  | _, [] => []
  | n, op :: ops => (op.share k n).toList ++ alone k (n + op.opens) ops

theorem apply_opens {p p' : Portfolio F} {op : Op F} (h : p.apply op = .ok p') :
    p'.positions.length = p.positions.length + op.opens := by
  cases op with
  | submitOpen label instruments side qty now =>
      obtain ⟨⟨p₁, id⟩, hopen, rfl⟩ := Run.map_eq_ok.mp h
      exact submitOpen_length hopen
  | submitClose id now => exact (submitClose_frame h).length
  | submitCloseLeg id i now => exact (submitCloseLeg_frame h).length
  | attachStopLoss id leg pct =>
      obtain ⟨_, rule, _, _, _, rfl⟩ := attachStopLoss_cases h
      rfl
  | attachTakeProfit id leg pct =>
      obtain ⟨_, rule, _, _, _, rfl⟩ := attachTakeProfit_cases h
      rfl
  | attachExitAt id leg when_ =>
      obtain ⟨_, rule, _, _, _, rfl⟩ := attachExitAt_cases h
      rfl
  | processRiskRules market => exact processRiskRules_length h
  | processPending market => exact (processPending_frame h).length
  | refreshMarks market =>
      cases h
      simp [Portfolio.refreshMarks, Op.opens]
  | settleExpiry market expiry level at_ =>
      obtain ⟨⟨p₁, n⟩, hsettle, rfl⟩ := Run.map_eq_ok.mp h
      exact (settleExpiry_frame hsettle).length
  | cancelWorkingOrders =>
      obtain ⟨⟨p₁, n⟩, hcancel, rfl⟩ := Run.map_eq_ok.mp h
      exact (cancelWorkingOrders_frame hcancel).2

/-- The states of the two runs between operations: no rule is firing. -/
structure Paired (k : PositionId) (p q : Portfolio F) : Prop where
  mirrors : Mirrors k p q
  flag : p.closingFromRule = false
  flag' : q.closingFromRule = false

omit [Double F] in
theorem Paired.flags (h : Paired k p q) : p.closingFromRule = q.closingFromRule := h.flag.trans h.flag'.symm

/-- An operation that is kept: what is addressed to position `k` is repeated at position `0`. -/
theorem Paired.own (h : Paired k p q) {op op' : Op F} (hshare : op.share k p.positions.length = some op')
    {p' : Portfolio F} (hop : p.apply op = .ok p') : ∃ q', q.apply op' = .ok q' ∧ Paired k p' q' := by
  have hm := h.mirrors
  cases op with
  | submitOpen label instruments side qty now =>
      obtain ⟨⟨p₁, id⟩, hopen, rfl⟩ := Run.map_eq_ok.mp hop
      dsimp only [Op.share] at hshare
      split_ifs at hshare with hk
      cases hshare
      obtain ⟨q₁, hq₁, hm₁, hp, hq⟩ := hm.submitOpen h.flags hk hopen
      exact ⟨q₁, Run.map_eq_ok.mpr ⟨_, hq₁, rfl⟩, hm₁, hp.trans h.flag, hq.trans h.flag'⟩
  | submitClose id now =>
      dsimp only [Op.share] at hshare
      split_ifs at hshare with hk
      cases hshare
      subst hk
      obtain ⟨q₁, hq₁, hm₁⟩ := hm.submitClose h.flags hop
      exact ⟨q₁, hq₁, hm₁, (submitClose_frame hop).flag.trans h.flag, (submitClose_frame hq₁).flag.trans h.flag'⟩
  | submitCloseLeg id i now =>
      dsimp only [Op.share] at hshare
      split_ifs at hshare with hk
      cases hshare
      subst hk
      obtain ⟨q₁, hq₁, hm₁⟩ := hm.submitCloseLeg h.flags hop
      exact ⟨q₁, hq₁, hm₁, (submitCloseLeg_frame hop).flag.trans h.flag,
        (submitCloseLeg_frame hq₁).flag.trans h.flag'⟩
  | attachStopLoss id leg pct =>
      dsimp only [Op.share] at hshare
      split_ifs at hshare with hk
      cases hshare
      subst hk
      obtain ⟨hpct, hop⟩ := Run.guard_eq_ok.mp hop
      obtain ⟨pos, hpos, hop⟩ := Run.bind_eq_ok.mp hop
      obtain ⟨pos', hpos', _⟩ := hm.atId hpos
      cases hop
      exact ⟨_, Run.guard_eq_ok.mpr ⟨hpct, Run.bind_eq_ok.mpr ⟨pos', hpos', rfl⟩⟩, hm.attach (if_pos rfl), h.flag,
        h.flag'⟩
  | attachTakeProfit id leg pct =>
      dsimp only [Op.share] at hshare
      split_ifs at hshare with hk
      cases hshare
      subst hk
      obtain ⟨hpct, hop⟩ := Run.guard_eq_ok.mp hop
      obtain ⟨pos, hpos, hop⟩ := Run.bind_eq_ok.mp hop
      obtain ⟨pos', hpos', _⟩ := hm.atId hpos
      cases hop
      exact ⟨_, Run.guard_eq_ok.mpr ⟨hpct, Run.bind_eq_ok.mpr ⟨pos', hpos', rfl⟩⟩, hm.attach (if_pos rfl), h.flag,
        h.flag'⟩
  | attachExitAt id leg when_ =>
      dsimp only [Op.share] at hshare
      split_ifs at hshare with hk
      cases hshare
      subst hk
      obtain ⟨pos, hpos, hop⟩ := Run.bind_eq_ok.mp hop
      obtain ⟨pos', hpos', _⟩ := hm.atId hpos
      cases hop
      exact ⟨_, Run.bind_eq_ok.mpr ⟨pos', hpos', rfl⟩, hm.attach (if_pos rfl), h.flag, h.flag'⟩
  | processRiskRules market =>
      cases hshare
      obtain ⟨q₁, hq₁, hm₁, hp, hq⟩ := hm.processRiskRules h.flag h.flag' hop
      exact ⟨q₁, hq₁, hm₁, hp, hq⟩
  | processPending market =>
      cases hshare
      obtain ⟨q₁, hq₁, hm₁⟩ := hm.processPending hop
      exact ⟨q₁, hq₁, hm₁, (processPending_frame hop).flag.trans h.flag, (processPending_frame hq₁).flag.trans h.flag'⟩
  | refreshMarks market =>
      cases hshare
      cases hop
      exact ⟨_, rfl, hm.refreshMarks market, h.flag, h.flag'⟩
  | settleExpiry market expiry level at_ =>
      cases hshare
      obtain ⟨⟨p₁, n⟩, hsettle, rfl⟩ := Run.map_eq_ok.mp hop
      obtain ⟨q₁, n', hq₁, hm₁⟩ := hm.settleExpiry hsettle
      exact ⟨q₁, Run.map_eq_ok.mpr ⟨_, hq₁, rfl⟩, hm₁, (settleExpiry_frame hsettle).flag.trans h.flag,
        (settleExpiry_frame hq₁).flag.trans h.flag'⟩
  | cancelWorkingOrders =>
      cases hshare
      obtain ⟨⟨p₁, n⟩, hcancel, rfl⟩ := Run.map_eq_ok.mp hop
      obtain ⟨q₁, n', hq₁, hm₁⟩ := hm.cancelWorkingOrders hcancel
      exact ⟨q₁, Run.map_eq_ok.mpr ⟨_, hq₁, rfl⟩, hm₁, (cancelWorkingOrders_frame hcancel).1.trans h.flag,
        (cancelWorkingOrders_frame hq₁).1.trans h.flag'⟩

/-- An operation that is deleted: it is addressed to another position. -/
theorem Paired.other (h : Paired k p q) {op : Op F} (hshare : op.share k p.positions.length = none)
    {p' : Portfolio F} (hop : p.apply op = .ok p') : Paired k p' q := by
  have hm := h.mirrors
  cases op with
  | submitOpen label instruments side qty now =>
      obtain ⟨⟨p₁, id⟩, hopen, rfl⟩ := Run.map_eq_ok.mp hop
      dsimp only [Op.share] at hshare
      split_ifs at hshare with hk
      obtain ⟨hm₁, hp⟩ := hm.submitOpen_other hk hopen
      exact ⟨hm₁, hp.trans h.flag, h.flag'⟩
  | submitClose id now =>
      dsimp only [Op.share] at hshare
      split_ifs at hshare with hk
      exact ⟨hm.submitClose_other hk hop, (submitClose_frame hop).flag.trans h.flag, h.flag'⟩
  | submitCloseLeg id i now =>
      dsimp only [Op.share] at hshare
      split_ifs at hshare with hk
      exact ⟨hm.submitCloseLeg_other hk hop, (submitCloseLeg_frame hop).flag.trans h.flag, h.flag'⟩
  | attachStopLoss id leg pct =>
      dsimp only [Op.share] at hshare
      split_ifs at hshare with hk
      obtain ⟨_, rule, _, rfl, _, rfl⟩ := attachStopLoss_cases hop
      exact ⟨hm.attach_other hk, h.flag, h.flag'⟩
  | attachTakeProfit id leg pct =>
      dsimp only [Op.share] at hshare
      split_ifs at hshare with hk
      obtain ⟨_, rule, _, rfl, _, rfl⟩ := attachTakeProfit_cases hop
      exact ⟨hm.attach_other hk, h.flag, h.flag'⟩
  | attachExitAt id leg when_ =>
      dsimp only [Op.share] at hshare
      split_ifs at hshare with hk
      obtain ⟨_, rule, _, rfl, _, rfl⟩ := attachExitAt_cases hop
      exact ⟨hm.attach_other hk, h.flag, h.flag'⟩
  | processRiskRules market => cases hshare
  | processPending market => cases hshare
  | refreshMarks market => cases hshare
  | settleExpiry market expiry level at_ => cases hshare
  | cancelWorkingOrders => cases hshare

/-- **The runs stay paired.** -/
theorem alone_paired {k : PositionId} : ∀ (ops : List (Op F)) {p q p' : Portfolio F}, Paired k p q →
    ops.foldlM apply p = .ok p' →
    ∃ q', (alone k p.positions.length ops).foldlM apply q = .ok q' ∧ Paired k p' q' := by
  intro ops
  induction ops with
  | nil =>
      intro p q p' h hops
      rw [Run.foldlM_nil_ok.mp hops]
      exact ⟨q, rfl, h⟩
  | cons op ops ih =>
      intro p q p' h hops
      obtain ⟨p₁, hop, hrest⟩ := Run.foldlM_cons_ok.mp hops
      have hcount := apply_opens hop
      unfold alone
      cases hshare : op.share k p.positions.length with
      | none =>
          obtain ⟨q', hq', hpaired⟩ := ih (h.other hshare hop) hrest
          rw [hcount] at hq'
          exact ⟨q', hq', hpaired⟩
      | some op' =>
          obtain ⟨q₁, hq₁, hpaired₁⟩ := h.own hshare hop
          obtain ⟨q', hq', hpaired⟩ := ih hpaired₁ hrest
          rw [hcount] at hq'
          exact ⟨q', Run.foldlM_cons_ok.mpr ⟨q₁, hq₁, hq'⟩, hpaired⟩

/-- **Positions do not interfere.** After any sequence of operations, the legs, the rules and the trades of
    position `k` are those of the only position of a portfolio that was spared the operations addressed to
    the others. -/
theorem positions_do_not_interfere {fills : FillModel F} {delay : Int} {costs : CostPolicy} {ops : List (Op F)}
    {p : Portfolio F} (h : ops.foldlM apply (empty fills delay costs) = .ok p) (k : PositionId) :
    ∃ q, (alone k 0 ops).foldlM apply (empty fills delay costs) = .ok q ∧
      q.positions.length ≤ 1 ∧
      (p.positions[k]?).map (·.legs) = (q.positions[0]?).map (·.legs) ∧
      p.rules.filterMap (·.share k) = q.rules ∧
      p.trades.filterMap (·.share k) = q.trades := by
  have hstart : Paired k (empty fills delay costs) (empty fills delay costs) :=
    { mirrors :=
        { fills := rfl, delay := rfl, costPolicy := rfl, ids := by simp [empty], ids' := by simp [empty],
          single := by simp [empty], legs := rfl, pending := rfl, rules := rfl, trades := rfl }
      flag := rfl
      flag' := rfl }
  obtain ⟨q, hq, hpaired⟩ := alone_paired ops hstart h
  have hm := hpaired.mirrors
  exact ⟨q, hq, hm.single, hm.legs, hm.rules, hm.trades⟩

/-- Two positions in one instrument; the rule of the second fires, the first is closed by hand. -/
def twoPositions : List (Op ℚ) :=
  [.submitOpen "short" [0] .Sell 2 5, .submitOpen "long" [0] .Buy 2 5, .attachExitAt 1 none 7,
    .processPending quotedMarket, .processRiskRules quotedMarket, .submitClose 0 11]

/-- The one that is bought trades as if the other were not there. -/
theorem positions_do_not_interfere_bought :
    ∃ p : Portfolio ℚ, twoPositions.foldlM apply (empty crossSpreadFill 1 noCosts) = .ok p ∧ p.trades.length = 2 ∧
      ∃ q : Portfolio ℚ,
        [.submitOpen "long" [0] .Buy 2 5, .attachExitAt 0 none 7, .processPending quotedMarket,
          .processRiskRules quotedMarket].foldlM apply (empty crossSpreadFill 1 noCosts) = .ok q ∧
        p.rules.filterMap (·.share 1) = q.rules ∧ p.trades.filterMap (·.share 1) = q.trades := by
  obtain ⟨p, hrun, hlen⟩ := Run.exists_of_succeeds (fun p : Portfolio ℚ => p.trades.length = 2)
    (twoPositions.foldlM apply (empty crossSpreadFill 1 noCosts)) (by decide +kernel)
  obtain ⟨q, hq, _, _, hrules, htrades⟩ := positions_do_not_interfere hrun 1
  have halone : alone 1 0 twoPositions = [.submitOpen "long" [0] .Buy 2 5, .attachExitAt 0 none 7,
      .processPending quotedMarket, .processRiskRules quotedMarket] := rfl
  rw [halone] at hq
  exact ⟨p, hrun, by simpa using hlen, q, hq, hrules, htrades⟩

end Portfolio

end Volforge
