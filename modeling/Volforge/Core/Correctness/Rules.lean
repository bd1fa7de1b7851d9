import Volforge.Core.Correctness.Books
import Volforge.Core.Correctness.Lifecycle

/-!
# `Core.Correctness.Rules` — a spent rule protects nothing that is still held

`Covered` is the invariant: every leg in the scope of a fired rule is on its way out or gone. Three things
change it: a rule fires, the bell takes exits back, and everything else, which only moves legs forward. The
first is `fireRule_covered`, the second `cancelWorkingOrders_covered`, the third `Covered.quiet`.
-/

namespace Volforge

variable {F : Type}

namespace Portfolio

/-! ## Scope of a rule -/

/-- The legs a rule is about: one, or all of its position. -/
def InScope (rule : RiskRule F) (i : Nat) : Prop := ∀ j, rule.leg = some j → i = j

/-- Every leg in the scope of the rule is on its way out or gone. -/
def SpentScope (rule : RiskRule F) (p : Portfolio F) : Prop :=
  ∀ i leg, InScope rule i → p.leg? rule.position i = some leg → leg.state.spent = true

/-- **Fired rules are covered**, and every rule is about a position that exists. -/
structure Covered (p : Portfolio F) : Prop where
  known : ∀ rule ∈ p.rules, rule.position < p.positions.length
  spent : ∀ rule ∈ p.rules, rule.fired = true → SpentScope rule p

theorem SpentScope.congr {rule : RiskRule F} {p q : Portfolio F} (h : SpentScope rule p)
    (hpos : q.positions = p.positions) : SpentScope rule q := by
  intro i leg hi hleg
  rw [leg?_congr hpos] at hleg
  exact h i leg hi hleg

/-- A position with nothing open has only spent legs. -/
theorem spent_of_not_open {p : Portfolio F} {id : PositionId} {pos : Position}
    (hpos : p.positions[id]? = some pos) (hopen : pos.isOpen = false) {i : Nat} {leg : Leg}
    (hleg : p.leg? id i = some leg) : leg.state.spent = true := by
  rw [leg?_of_position hpos] at hleg
  have hnot := List.any_eq_false.mp hopen leg (List.mem_of_getElem? hleg)
  cases hst : leg.state with
  | PendingOpen => simp [hst] at hnot
  | Open => simp [Leg.live, hst] at hnot
  | PendingClose => rfl
  | Closed => rfl
  | Cancelled => rfl

/-- An established position has no leg waiting to open. -/
theorem not_pendingOpen_of_established {p : Portfolio F} {id : PositionId} {pos : Position}
    (hpos : p.positions[id]? = some pos) (hest : pos.established = true) {i : Nat} {leg : Leg}
    (hleg : p.leg? id i = some leg) : leg.state ≠ .PendingOpen := by
  intro hst
  rw [leg?_of_position hpos] at hleg
  simp only [Position.established, Bool.and_eq_true] at hest
  have hall := List.all_eq_true.mp hest.1 leg (List.mem_of_getElem? hleg)
  simp [Leg.cancelled, Leg.filled, hst] at hall

variable [Double F]

/-! ## Moves that leave the rules alone -/

theorem Move.rules_eq {c : Scope} (hstand : c.standing) {p p' : Portfolio F} (hm : Move c p p') :
    p'.rules = p.rules := by
  cases hm with
  | fills =>
      unfold fillOrder execute
      split <;> rfl
  | rules hfree => exact absurd hstand hfree
  | position => rfl
  | opens => rfl
  | exits => rfl
  | withdraws => rfl
  | abandons => rfl
  | settles => rfl
  | drops => rfl
  | marks => rfl

theorem Moves.rules_eq {c : Scope} (hstand : c.standing) {p p' : Portfolio F} (hm : Moves c p p') :
    p'.rules = p.rules :=
  hm.inv (fun q => q.rules = p.rules) (fun _ _ hq hmove => (hmove.rules_eq hstand).trans hq) rfl

/-- **Invariant rule for a slot.** No leg appears in a position that was there before; what its leg had, and
    every transition preserves, it still has. -/
theorem Moves.slot_inv {c : Scope} (Q : Leg → Prop) (hQ : ∀ l l', Q l → LegStep c l l' → Q l')
    {p p' : Portfolio F} (hm : Moves c p p') (hmat : Matched c.expired p) {id : PositionId}
    (hk : id < c.known) {i : Nat} (hq : ∀ leg, p.leg? id i = some leg → Q leg) :
    ∀ leg, p'.leg? id i = some leg → Q leg := by
  have hinv := hm.inv (fun q => Matched c.expired q ∧ ∀ leg, q.leg? id i = some leg → Q leg) ?_ ⟨hmat, hq⟩
  · exact hinv.2
  · rintro q q' ⟨hqmat, hqQ⟩ hmove
    refine ⟨hqmat.move hmove, fun leg' hleg' => ?_⟩
    cases hleg : q.leg? id i with
    | none => exact absurd (hmove.leg_new hleg hleg').1 (Nat.not_le.mpr hk)
    | some leg =>
        obtain ⟨leg'', hleg'', hstep⟩ := hmove.leg_step hqmat hleg
        rw [hleg'] at hleg''
        cases hleg''
        exact hQ leg leg' (hqQ leg hleg) hstep

/-- Without the bell, spent legs stay spent. -/
theorem SpentScope.moves {c : Scope} (hbell : ¬ c.bell) {p p' : Portfolio F} {rule : RiskRule F}
    (h : SpentScope rule p) (hk : rule.position < c.known) (hmat : Matched c.expired p) (hm : Moves c p p') :
    SpentScope rule p' :=
  fun i leg' hi => hm.slot_inv (fun l => l.state.spent = true)
    (fun _ _ hl hstep => hstep.next.spent hbell hl) hmat hk (fun leg => h i leg hi) leg'

theorem Moves.positions_le {c : Scope} {p p' : Portfolio F} (hm : Moves c p p') :
    p.positions.length ≤ p'.positions.length :=
  hm.inv (fun q => p.positions.length ≤ q.positions.length)
    (fun _ _ hq hmove => Nat.le_trans hq hmove.positions_le) (Nat.le_refl _)

/-- **An operation that neither touches the rules nor rings the bell keeps fired rules covered.** -/
theorem Covered.quiet {c : Scope} (hbell : ¬ c.bell) (hstand : c.standing) {p p' : Portfolio F}
    (h : Covered p) (hk : c.known = p.positions.length) (hmat : Matched c.expired p) (hm : Moves c p p') :
    Covered p' where
  known := by
    intro rule hrule
    rw [hm.rules_eq hstand] at hrule
    exact Nat.lt_of_lt_of_le (h.known rule hrule) hm.positions_le
  spent := by
    intro rule hrule hfired
    rw [hm.rules_eq hstand] at hrule
    have hknown := h.known rule hrule
    rw [← hk] at hknown
    exact (h.spent rule hrule hfired).moves hbell hknown hmat hm

/-! ## A rule fires -/

omit [Double F] in
theorem submitCloseLeg_spent {p p' : Portfolio F} {id : PositionId} {i : Nat} {leg leg' : Leg}
    {now : Timestamp} (hleg : p.leg? id i = some leg) (hopen : leg.state = .Open)
    (h : p.submitCloseLeg id i now = .ok p') (hleg' : p'.leg? id i = some leg') :
    leg'.state.spent = true := by
  obtain ⟨pos, hpos, hi⟩ := leg?_eq_some.mp hleg
  simp only [submitCloseLeg, atId_eq_ok.mpr hpos, Run.ok_bind, hi, hopen, ne_eq, not_true_eq_false,
    if_false, Run.pure_eq_ok, Except.ok.injEq] at h
  subst h
  have hset : (p.setState id i .PendingClose).leg? id i = some leg' := hleg'
  rw [leg?_setState, if_pos ⟨rfl, rfl⟩, hleg, Option.map_some, Option.some.injEq] at hset
  subst hset
  rfl

omit [Double F] in
/-- One turn of the second loop of `submit_close` leaves the leg spent, if it had opened. -/
theorem closeIfOpen_spent {p p' : Portfolio F} {id : PositionId} {i : Nat} {now : Timestamp}
    (hopened : ∀ leg, p.leg? id i = some leg → leg.state ≠ .PendingOpen)
    (h : closeIfOpen id now p i = .ok p') {leg' : Leg} (hleg' : p'.leg? id i = some leg') :
    leg'.state.spent = true := by
  unfold closeIfOpen at h
  cases hleg : p.leg? id i with
  | none =>
      simp only [hleg, Except.ok.injEq] at h
      subst h
      rw [hleg] at hleg'
      cases hleg'
  | some leg =>
      simp only [hleg] at h
      by_cases hst : leg.state = .Open
      · rw [if_pos hst] at h
        exact submitCloseLeg_spent hleg hst h hleg'
      · rw [if_neg hst] at h
        cases h
        rw [hleg, Option.some.injEq] at hleg'
        subst hleg'
        have hnot := hopened leg hleg
        cases hst' : leg.state with
        | PendingOpen => exact absurd hst' hnot
        | Open => exact absurd hst' hst
        | PendingClose => rfl
        | Closed => rfl
        | Cancelled => rfl

theorem closeIfOpen_moves {c : Scope} {p p' : Portfolio F} {id : PositionId} {i : Nat}
    (h : closeIfOpen id c.now p i = .ok p') : Moves c p p' := by
  unfold closeIfOpen at h
  split at h
  · split at h
    · exact submitCloseLeg_moves h
    · cases h
      exact .refl
  · cases h
    exact .refl

omit [Double F] in
theorem LegStep.not_pendingOpen {c : Scope} {l l' : Leg} (h : l.state ≠ .PendingOpen)
    (hstep : LegStep c l l') : l'.state ≠ .PendingOpen := by
  have hnext := hstep.next
  generalize l.state = st at h hnext
  generalize l'.state = st' at hnext
  cases hnext <;> first | exact h | exact nofun

/-- **Closing an established position leaves only spent legs.** -/
theorem submitClose_spent {p p' : Portfolio F} {id : PositionId} {pos : Position} {now : Timestamp}
    (hmat : Matched noneExpired p) (hpos : p.positions[id]? = some pos) (hest : pos.established = true)
    (h : p.submitClose id now = .ok p') :
    ∀ i leg, p'.leg? id i = some leg → leg.state.spent = true := by
  have hid : id < (p.quietScope now).known := (List.getElem?_eq_some_iff.mp hpos).1
  simp only [submitClose, atId_eq_ok.mpr hpos, Run.ok_bind] at h
  have hcancel : Moves (p.quietScope now) p (p.pending.foldl (cancelOpening id) { p with pending := [] }) :=
    submitClose_cancels id p
  have hloop := Run.foldlM_inv_rest
    (I := fun rest q => Moves (p.quietScope now) p q ∧
      ∀ i leg, i ∉ rest → q.leg? id i = some leg → leg.state.spent = true)
    ?_ ⟨hcancel, ?_⟩ h
  · exact fun i leg => hloop.2 i leg (by simp)
  · rintro q k rest q' ⟨hq, hdone⟩ hstep
    have hstepMoves : Moves (p.quietScope now) q q' := closeIfOpen_moves hstep
    refine ⟨hq.trans hstepMoves, fun i leg' hi hleg' => ?_⟩
    by_cases hik : i = k
    · subst hik
      refine closeIfOpen_spent ?_ hstep hleg'
      exact hq.slot_inv _ (fun _ _ => LegStep.not_pendingOpen) hmat hid
        (fun leg => not_pendingOpen_of_established hpos hest)
    · -- another leg, already spent: the turn only moves it forward
      refine hstepMoves.slot_inv (fun l => l.state.spent = true)
        (fun _ _ hl hs => hs.next.spent (fun hno => hno) hl) (hmat.moves hq) hid ?_ leg' hleg'
      exact fun leg hleg => hdone i leg (by simp [hik, hi]) hleg
  · -- beyond the last leg there is none
    intro i leg hi
    refine hcancel.slot_inv (fun l => l.state.spent = true) (fun _ _ hl hs => hs.next.spent (fun hno => hno) hl)
      hmat hid (fun leg hleg => ?_) leg
    rw [leg?_of_position hpos, List.getElem?_eq_none (by simpa using hi)] at hleg
    cases hleg

/-- The scope in which a rule's closing orders are submitted: the rules stay as they are. -/
def firingScope (p : Portfolio F) (now : Timestamp) : Scope := { p.quietScope now with standing := True }

theorem closeScope_spent {p p' : Portfolio F} {rule : RiskRule F} {pos : Position} {now : Timestamp}
    (hmat : Matched noneExpired p) (hpos : p.positions[rule.position]? = some pos)
    (hleg : ∀ i, rule.leg = some i → ∃ leg, pos.legs[i]? = some leg ∧ leg.state = .Open)
    (hest : rule.leg = none → pos.established = true) (h : p.closeScope rule now = .ok p') :
    SpentScope rule p' := by
  intro i leg' hi hleg'
  unfold closeScope at h
  cases hscope : rule.leg with
  | none =>
      rw [hscope] at h
      exact submitClose_spent hmat hpos (hest hscope) h i leg' hleg'
  | some j =>
      rw [hscope] at h
      have hij := hi j hscope
      subst hij
      obtain ⟨leg, hget, hopen⟩ := hleg i hscope
      have hslot : p.leg? rule.position i = some leg := by rw [leg?_of_position hpos, hget]
      exact submitCloseLeg_spent hslot hopen h hleg'

omit [Double F] in
theorem mem_setFired {p : Portfolio F} {k : Nat} {rule r : RiskRule F} (hrule : p.rules[k]? = some rule)
    (h : r ∈ (p.setFired k).rules) : r ∈ p.rules ∨ r = { rule with fired := true } := by
  obtain ⟨j, hj⟩ := List.mem_iff_getElem?.mp h
  simp only [setFired, List.getElem?_modify] at hj
  obtain ⟨r', hr', heq⟩ := Option.map_eq_some_iff.mp hj
  by_cases hkj : k = j
  · subst hkj
    rw [hrule, Option.some.injEq] at hr'
    subst hr'
    rw [if_pos rfl] at heq
    exact .inr heq.symm
  · rw [if_neg hkj] at heq
    subst heq
    exact .inl (List.mem_of_getElem? hr')

/-- **A rule that fires covers its scope.** -/
theorem fireRule_covered {p p' : Portfolio F} {k : Nat} {rule : RiskRule F} {pos : Position}
    {now : Timestamp} (h : Covered p) (hmat : Matched noneExpired p) (hrule : p.rules[k]? = some rule)
    (hpos : p.positions[rule.position]? = some pos)
    (hleg : ∀ i, rule.leg = some i → ∃ leg, pos.legs[i]? = some leg ∧ leg.state = .Open)
    (hest : rule.leg = none → pos.established = true) (hfire : p.fireRule k rule now = .ok p') :
    Covered p' := by
  obtain ⟨q, hclose, rfl⟩ := fireRule_eq_ok.mp hfire
  have hmoves : Moves (p.firingScope now) (p.startRule k) q := closeScope_moves hclose
  have hrules : q.rules = (p.setFired k).rules := hmoves.rules_eq trivial
  have hspent := closeScope_spent (p := p.startRule k) hmat hpos hleg hest hclose
  have hknown : ∀ r ∈ q.rules, r.position < p.positions.length := by
    intro r hr
    rw [hrules] at hr
    obtain hr | rfl := mem_setFired hrule hr
    · exact h.known r hr
    · exact h.known rule (List.mem_of_getElem? hrule)
  refine ⟨fun r hr => Nat.lt_of_lt_of_le (hknown r hr) hmoves.positions_le, fun r hr hfired => ?_⟩
  have hr' := hr
  rw [show ({ q with closingFromRule := false } : Portfolio F).rules = q.rules from rfl, hrules] at hr'
  obtain hr' | rfl := mem_setFired hrule hr'
  · -- a rule that had fired before stays covered, nothing being held again
    have hstart : SpentScope r (p.startRule k) := h.spent r hr' hfired
    have hend : SpentScope r q := hstart.moves (fun hno => hno) (hknown r hr) hmat hmoves
    exact hend
  · exact hspent

omit [Double F] in
/-- A rule with nothing left to protect is covered as it is. -/
theorem setFired_covered {p : Portfolio F} {k : Nat} {rule : RiskRule F} {pos : Position} (h : Covered p)
    (hrule : p.rules[k]? = some rule) (hpos : p.positions[rule.position]? = some pos)
    (hidle : pos.isOpen = false ∨ ∃ i, rule.leg = some i ∧ pos.legs[i]? = none) :
    Covered (p.setFired k) where
  known := by
    intro r hr
    obtain hr | rfl := mem_setFired hrule hr
    · exact h.known r hr
    · exact h.known rule (List.mem_of_getElem? hrule)
  spent := by
    intro r hr hfired
    obtain hr | rfl := mem_setFired hrule hr
    · exact h.spent r hr hfired
    · intro i leg hi hleg
      obtain hopen | ⟨j, hj, hnone⟩ := hidle
      · exact spent_of_not_open hpos hopen hleg
      · -- the rule names a leg its position does not have
        have hij := hi j hj
        subst hij
        have hleg : p.leg? rule.position i = some leg := hleg
        rw [leg?_of_position hpos, hnone] at hleg
        cases hleg

theorem processRule_covered {market : MarketView} {p p' : Portfolio F} {k : Nat} (h : Covered p)
    (hmat : Matched noneExpired p) (hstep : processRule market p k = .ok p') : Covered p' := by
  obtain rfl | ⟨rule, pos, hrule, _, hpos, ⟨rfl, hidle⟩ | ⟨hleg, hest, hfire⟩⟩ := processRule_cases hstep
  · exact h
  · exact setFired_covered h hrule hpos hidle
  · exact fireRule_covered h hmat hrule hpos hleg hest hfire

theorem processRiskRules_covered {market : MarketView} {p p' : Portfolio F} (h : Covered p)
    (hmat : Matched noneExpired p) (hrun : p.processRiskRules market = .ok p') : Covered p' := by
  have hloop := Run.foldlM_inv (fun q => Covered q ∧ Matched noneExpired q) ?_ _ p p' ⟨h, hmat⟩ hrun
  · exact hloop.1
  · rintro q k q' ⟨hq, hqmat⟩ hstep
    exact ⟨processRule_covered hq hqmat hstep,
      hqmat.moves (processRule_moves (c := q.quietScope market.now) (fun hno => hno) rfl hstep)⟩

/-! ## The bell -/

/-- Where the bell leaves a leg whose exit did not fill: held again, and its position reported. -/
def Reverted (abandoned : List PositionId) (id : PositionId) (leg : Leg) : Prop :=
  leg.state = .Open ∧ id ∈ abandoned

/-- What the loop of `cancel_working_orders` has done to the legs so far. -/
structure BellProgress (p q : Portfolio F) (abandoned : List PositionId) : Prop where
  spent : ∀ id i leg, p.leg? id i = some leg → leg.state.spent = true →
    ∃ leg', q.leg? id i = some leg' ∧ (leg'.state.spent = true ∨ Reverted abandoned id leg')
  exiting : ∀ id i leg, p.leg? id i = some leg → leg.state = .PendingClose →
    ∃ leg', q.leg? id i = some leg' ∧ (leg'.state = .PendingClose ∨ Reverted abandoned id leg')

omit [Double F] in
theorem Reverted.mono {abandoned : List PositionId} {id : PositionId} {leg : Leg} (id' : PositionId)
    (h : Reverted abandoned id leg) : Reverted (id' :: abandoned) id leg :=
  ⟨h.1, List.mem_cons_of_mem _ h.2⟩

omit [Double F] in
/-- One turn of the loop, for one leg: `Q` stands for what the leg was known to be. -/
theorem abandonOrder_leg {q : Portfolio F} {abandoned : List PositionId} {o : PendingOrder}
    {rest : List PendingOrder} (hmat : Matched noneExpired (q.withRest (o :: rest))) (Q : Leg → Prop)
    (hQ : ∀ l : Leg, l.state = .PendingOpen → ¬ Q l) {id : PositionId} {i : Nat} {leg : Leg}
    (hleg : q.leg? id i = some leg) (h : Q leg ∨ Reverted abandoned id leg) :
    ∃ leg', (abandonOrder (q, abandoned) o).1.leg? id i = some leg' ∧
      (Q leg' ∨ Reverted (abandonOrder (q, abandoned) o).2 id leg') := by
  obtain ⟨leg₀, hleg₀, ⟨_, _, heq⟩ | ⟨_, hst, heq⟩⟩ :=
    abandonOrder_cases (fun _ hno => hno) abandoned hmat
  · rw [heq]
    have hmod : ((q.setState o.position o.legIndex .Open).countCancelled o).leg? id i = _ :=
      leg?_setState q o.position o.legIndex .Open id i
    rw [hmod]
    by_cases hs : id = o.position ∧ i = o.legIndex
    · obtain ⟨rfl, rfl⟩ := hs
      rw [if_pos ⟨rfl, rfl⟩, hleg]
      exact ⟨_, rfl, .inr ⟨rfl, by simp⟩⟩
    · rw [if_neg hs]
      exact ⟨leg, hleg, h.imp_right (fun hr => hr.mono o.position)⟩
  · rw [heq]
    have hmod : ((q.setState o.position o.legIndex .Cancelled).countCancelled o).leg? id i = _ :=
      leg?_setState q o.position o.legIndex .Cancelled id i
    rw [hmod]
    by_cases hs : id = o.position ∧ i = o.legIndex
    · -- an order that has not opened its leg is not about such a leg
      obtain ⟨rfl, rfl⟩ := hs
      rw [hleg₀, Option.some.injEq] at hleg
      subst hleg
      obtain hq | hr := h
      · exact absurd hq (hQ leg₀ hst)
      · rw [hr.1] at hst
        cases hst
    · rw [if_neg hs]
      exact ⟨leg, hleg, h⟩

theorem abandonOrders_progress {p : Portfolio F} (hmat : Matched noneExpired p) :
    BellProgress p (p.pending.foldl abandonOrder ({ p with pending := [] }, [])).1
      (p.pending.foldl abandonOrder ({ p with pending := [] }, [])).2 := by
  have hstart : BellProgress p { p with pending := [] } [] :=
    ⟨fun _ _ leg hleg h => ⟨leg, hleg, .inl h⟩, fun _ _ leg hleg h => ⟨leg, hleg, .inl h⟩⟩
  have hloop := Run.foldl_inv_rest (f := abandonOrder (F := F))
    (fun rest acc => Matched noneExpired (acc.1.withRest rest) ∧ BellProgress p acc.1 acc.2) p.pending
    ?_ (s := ({ p with pending := [] }, [])) ⟨by rw [withRest_start]; exact hmat, hstart⟩
  · exact hloop.2
  · rintro ⟨q, abandoned⟩ o rest ⟨hq, hprog⟩
    let c : Scope := { q.quietScope 0 with bell := True }
    refine ⟨Matched.move (c := c) hq (abandonOrder_move (fun _ hno => hno) trivial q abandoned o rest hq),
      ⟨fun id i leg hleg hspent => ?_, fun id i leg hleg hst => ?_⟩⟩
    · obtain ⟨leg', hleg', h⟩ := hprog.spent id i leg hleg hspent
      refine abandonOrder_leg hq (fun l => l.state.spent = true) ?_ hleg' h
      intro l hl hl'
      simp [LegState.spent, LegState.terminal, hl] at hl'
    · obtain ⟨leg', hleg', h⟩ := hprog.exiting id i leg hleg hst
      refine abandonOrder_leg hq (fun l => l.state = .PendingClose) ?_ hleg' h
      intro l hl hl'
      rw [hl] at hl'
      cases hl'

omit [Double F] in
theorem rearm_cases {p : Portfolio F} {abandoned : List PositionId} {rule r : RiskRule F}
    (h : rearm p abandoned rule = .ok r) :
    (r = rule ∧ (rule.fired = true → rule.position ∈ abandoned →
        ∃ pos, p.positions[rule.position]? = some pos ∧ pos.isOpen = false)) ∨
      r = { rule with fired := false } := by
  unfold rearm at h
  cases hfired : rule.fired with
  | false =>
      simp only [hfired, if_true, Except.ok.injEq] at h
      exact .inl ⟨h.symm, by simp⟩
  | true =>
      simp only [hfired, Bool.true_eq_false, if_false] at h
      by_cases hmem : rule.position ∈ abandoned
      · simp only [hmem, not_true_eq_false, if_false] at h
        obtain ⟨pos, hat, h⟩ := Run.bind_eq_ok.mp h
        cases hopen : pos.isOpen with
        | false =>
            simp only [hopen, Bool.not_false, if_true, Run.pure_eq_ok, Except.ok.injEq] at h
            exact .inl ⟨h.symm, fun _ _ => ⟨pos, atId_eq_ok.mp hat, hopen⟩⟩
        | true =>
            simp only [hopen, Bool.not_true, Bool.false_eq_true, if_false, Run.pure_eq_ok,
              Except.ok.injEq] at h
            exact .inr h.symm
      · simp only [hmem, not_false_eq_true, if_true, Except.ok.injEq] at h
        exact .inl ⟨h.symm, fun _ hin => absurd hin hmem⟩

omit [Double F] in
/-- An open leg keeps its position open. -/
theorem isOpen_of_live {p : Portfolio F} {id : PositionId} {pos : Position} {i : Nat} {leg : Leg}
    (hpos : p.positions[id]? = some pos) (hleg : p.leg? id i = some leg) (hopen : leg.state = .Open) :
    pos.isOpen = true := by
  rw [leg?_of_position hpos] at hleg
  exact List.any_eq_true.mpr ⟨leg, List.mem_of_getElem? hleg, by simp [Leg.live, hopen]⟩

omit [Double F] in
theorem BellProgress.congr {p q r : Portfolio F} {abandoned : List PositionId} (h : BellProgress p q abandoned)
    (hpos : r.positions = q.positions) : BellProgress p r abandoned where
  spent := fun id i leg hleg hst => by
    rw [leg?_congr hpos]
    exact h.spent id i leg hleg hst
  exiting := fun id i leg hleg hst => by
    rw [leg?_congr hpos]
    exact h.exiting id i leg hleg hst

/-- The scope of the end of a session. -/
def bellScope (p : Portfolio F) : Scope := { p.quietScope 0 with bell := True }

/-- What `cancel_working_orders` does, taken apart. -/
theorem cancelWorkingOrders_eq_ok {p p' : Portfolio F} {n : Nat} (hmat : Matched noneExpired p)
    (h : p.cancelWorkingOrders = .ok (p', n)) :
    ∃ abandoned, BellProgress p p' abandoned ∧ Moves p.bellScope p p' ∧ p'.pending = [] ∧
      List.Forall₂ (fun rule r => rearm p' abandoned rule = .ok r) p.rules p'.rules := by
  obtain ⟨hall, hempty⟩ := cancelWorkingOrders_moves (c := p.bellScope) (fun _ hno => hno) trivial
    (fun hno => hno) hmat h
  have hprog := abandonOrders_progress hmat
  have hrules := (abandonOrders_moves (c := { p.bellScope with standing := True }) (fun _ hno => hno) trivial
    hmat).1.rules_eq trivial
  unfold cancelWorkingOrders at h
  generalize p.pending.foldl abandonOrder ({ p with pending := [] }, []) = acc at h hprog hrules
  obtain ⟨q, abandoned⟩ := acc
  obtain ⟨rules, hmap, h⟩ := Run.bind_eq_ok.mp h
  simp only [Run.pure_eq_ok, Except.ok.injEq, Prod.mk.injEq] at h
  obtain ⟨rfl, _⟩ := h
  have hmap := Run.mapM_ok_iff.mp hmap
  rw [show q.rules = p.rules from hrules] at hmap
  exact ⟨abandoned, hprog.congr rfl, hall, hempty, hmap⟩

omit [Double F] in
theorem not_exiting_of_empty {p : Portfolio F} (hmat : Matched noneExpired p) (hempty : p.pending = [])
    {id : PositionId} {i : Nat} {leg : Leg} (hleg : p.leg? id i = some leg) :
    leg.state ≠ .PendingClose ∧ leg.state ≠ .PendingOpen := by
  have hslot := hmat id i
  have hnone : p.ordersFor id i = [] := by simp [ordersFor, hempty]
  rw [hleg, hnone] at hslot
  simp only [SlotMatched, LegMatched] at hslot
  constructor
  · intro hst
    simp [hst] at hslot
  · intro hst
    simp [hst] at hslot

/-- **The bell re-arms the rules whose exits it abandons**, and leaves the others covered. -/
theorem cancelWorkingOrders_covered {p p' : Portfolio F} {n : Nat} (h : Covered p)
    (hmat : Matched noneExpired p) (hrun : p.cancelWorkingOrders = .ok (p', n)) : Covered p' := by
  obtain ⟨abandoned, hprog, hmoves, _, hrules⟩ := cancelWorkingOrders_eq_ok hmat hrun
  have hfrom : ∀ r ∈ p'.rules, ∃ rule ∈ p.rules, rearm p' abandoned rule = .ok r := by
    intro r hr
    obtain ⟨k, hk⟩ := List.mem_iff_getElem?.mp hr
    obtain ⟨hlt, hget⟩ := List.getElem?_eq_some_iff.mp hk
    have hlt' : k < p.rules.length := by rw [hrules.length_eq]; exact hlt
    refine ⟨p.rules[k], List.getElem_mem hlt', ?_⟩
    rw [← hget]
    exact hrules.get hlt' hlt
  constructor
  · intro r hr
    obtain ⟨rule, hrule, hre⟩ := hfrom r hr
    have hknown := Nat.lt_of_lt_of_le (h.known rule hrule) hmoves.positions_le
    obtain ⟨rfl, _⟩ | rfl := rearm_cases hre
    · exact hknown
    · exact hknown
  · intro r hr hfired i leg' hi hleg'
    obtain ⟨rule, hrule, hre⟩ := hfrom r hr
    obtain ⟨rfl, hkeep⟩ | rfl := rearm_cases hre
    · -- the rule stayed spent: its legs were not held again
      cases hleg : p.leg? r.position i with
      | none =>
          refine absurd hleg' (fun hleg' => ?_)
          refine hmoves.slot_inv (fun _ => False) (fun _ _ hf _ => hf) hmat (h.known r hrule) ?_ leg' hleg'
          intro leg hleg''
          rw [hleg] at hleg''
          cases hleg''
      | some leg =>
          obtain ⟨leg'', hleg'', hst⟩ := hprog.spent _ _ leg hleg (h.spent r hrule hfired i leg hi hleg)
          rw [hleg', Option.some.injEq] at hleg''
          subst hleg''
          obtain hspent | ⟨hopen, hin⟩ := hst
          · exact hspent
          · obtain ⟨pos, hpos, hclosed⟩ := hkeep hfired hin
            rw [isOpen_of_live hpos hleg' hopen] at hclosed
            cases hclosed
    · cases hfired

/-- **A rule whose exit was abandoned is armed again.** -/
theorem cancelWorkingOrders_rearms {p p' : Portfolio F} {n k i : Nat} {rule : RiskRule F} {leg : Leg}
    (hmat : Matched noneExpired p) (hrun : p.cancelWorkingOrders = .ok (p', n))
    (hrule : p.rules[k]? = some rule) (hleg : p.leg? rule.position i = some leg)
    (hst : leg.state = .PendingClose) :
    p'.rules[k]? = some { rule with fired := false } := by
  obtain ⟨abandoned, hprog, hmoves, hempty, hrules⟩ := cancelWorkingOrders_eq_ok hmat hrun
  obtain ⟨hlt, hget⟩ := List.getElem?_eq_some_iff.mp hrule
  have hlt' : k < p'.rules.length := by rw [← hrules.length_eq]; exact hlt
  have hre : rearm p' abandoned p.rules[k] = .ok p'.rules[k] := hrules.get hlt hlt'
  rw [hget] at hre
  rw [List.getElem?_eq_getElem hlt', Option.some.injEq]
  -- the leg is held again, so its position was reported and is open
  obtain ⟨leg', hleg', hst'⟩ := hprog.exiting _ i leg hleg hst
  have hmat' : Matched noneExpired p' := hmat.moves hmoves
  obtain hpc | ⟨hopen, hin⟩ := hst'
  · exact absurd hpc (not_exiting_of_empty hmat' hempty hleg').1
  · obtain ⟨heq, hkeep⟩ | heq := rearm_cases hre
    · cases hfired : rule.fired with
      | false =>
          rw [heq]
          obtain ⟨kind, position, leg, threshold, deadline, fired⟩ := rule
          simp only at hfired
          subst hfired
          rfl
      | true =>
          obtain ⟨pos, hpos, hclosed⟩ := hkeep hfired hin
          rw [isOpen_of_live hpos hleg' hopen] at hclosed
          cases hclosed
    · exact heq

/-! ## Every operation -/

omit [Double F] in
/-- Attaching a rule, which starts armed. -/
theorem Covered.attach {p : Portfolio F} (h : Covered p) {id : PositionId} {pos : Position}
    (hat : p.atId id = .ok pos) (rule : RiskRule F) (hid : rule.position = id) (harmed : rule.fired = false) :
    Covered { p with rules := p.rules ++ [rule] } where
  known := by
    intro r hr
    obtain hr | hr := List.mem_append.mp hr
    · exact h.known r hr
    · rw [List.mem_singleton] at hr
      subst hr
      rw [hid]
      exact (List.getElem?_eq_some_iff.mp (atId_eq_ok.mp hat)).1
  spent := by
    intro r hr hfired
    obtain hr | hr := List.mem_append.mp hr
    · exact h.spent r hr hfired
    · rw [List.mem_singleton] at hr
      subst hr
      rw [harmed] at hfired
      cases hfired

/-- **Every operation keeps fired rules covered.** -/
theorem Covered.apply {p p' : Portfolio F} {op : Op F} (h : Covered p) (hmat : Matched noneExpired p)
    (hop : p.apply op = .ok p') : Covered p' := by
  have hidle : ∀ id, ¬ noneExpired id := fun _ hno => hno
  cases op with
  | submitOpen label instruments side qty now =>
      obtain ⟨id, hop⟩ := fst_map_eq_ok hop
      have hm := (submitOpen_moves (c := p.firingScope now) (Nat.le_refl _) hop).1
      exact h.quiet (fun hno => hno) trivial rfl hmat hm
  | submitClose id now =>
      have hm := submitClose_moves (c := p.firingScope now) hop
      exact h.quiet (fun hno => hno) trivial rfl hmat hm
  | submitCloseLeg id i now =>
      have hm := submitCloseLeg_moves (c := p.firingScope now) hop
      exact h.quiet (fun hno => hno) trivial rfl hmat hm
  | attachStopLoss id leg pct =>
      obtain ⟨pos, rule, hat, hid, harmed, rfl⟩ := attachStopLoss_cases hop
      exact h.attach hat rule hid harmed
  | attachTakeProfit id leg pct =>
      obtain ⟨pos, rule, hat, hid, harmed, rfl⟩ := attachTakeProfit_cases hop
      exact h.attach hat rule hid harmed
  | attachExitAt id leg when_ =>
      obtain ⟨pos, rule, hat, hid, harmed, rfl⟩ := attachExitAt_cases hop
      exact h.attach hat rule hid harmed
  | processRiskRules market => exact processRiskRules_covered h hmat hop
  | processPending market =>
      have hm := processPending_moves (c := { p.firingScope market.now with quote := market.current }) rfl
        (fun _ _ _ => rfl)
        hidle hop
      exact h.quiet (fun hno => hno) trivial rfl hmat hm
  | refreshMarks market =>
      cases hop
      have hm := refreshMarks_moves (c := p.firingScope market.now) p market
      exact h.quiet (fun hno => hno) trivial rfl hmat hm
  | settleExpiry market expiry level at_ =>
      obtain ⟨n, hop⟩ := fst_map_eq_ok hop
      obtain ⟨hm, _, _⟩ := settleExpiry_moves
        (c := { p.firingScope at_ with expired := settling market expiry }) rfl hmat hop
      exact h.quiet (fun hno => hno) trivial rfl hmat.mono hm
  | cancelWorkingOrders =>
      obtain ⟨n, hop⟩ := fst_map_eq_ok hop
      exact cancelWorkingOrders_covered h hmat hop

theorem Reachable.covered {fills : FillModel F} {delay : Int} {costs : CostPolicy} {p : Portfolio F}
    (h : Reachable fills delay costs p) : Covered p := by
  have hinv := h.inv (fun q => Matched noneExpired q ∧ Covered q)
    ⟨matched_empty fills delay costs, ⟨by simp [empty], by simp [empty]⟩⟩
    (fun q op q' hq hop => ⟨(apply_moves hq.1 hop).2, hq.2.apply hq.1 hop⟩)
  exact hinv.2

/-! ## Main result -/

/-- **A spent risk rule never leaves its holding unprotected.** In every reachable state the legs in the scope
    of a fired rule are on their way out or gone; after the bell none of them is held, and every rule whose
    exit the bell abandoned is armed again. -/
theorem fired_rules_protect {fills : FillModel F} {delay : Int} {costs : CostPolicy} {p : Portfolio F}
    (h : Reachable fills delay costs p) :
    (∀ rule ∈ p.rules, rule.fired = true → ∀ i leg, InScope rule i → p.leg? rule.position i = some leg →
      leg.state = .PendingClose ∨ leg.state = .Closed ∨ leg.state = .Cancelled) ∧
    ∀ p' n, p.cancelWorkingOrders = .ok (p', n) →
      (∀ rule ∈ p'.rules, rule.fired = true → ∀ i leg, InScope rule i →
        p'.leg? rule.position i = some leg → leg.live = false) ∧
      ∀ (k : Nat) rule i leg, p.rules[k]? = some rule → rule.fired = true → InScope rule i →
        p.leg? rule.position i = some leg → leg.state = .PendingClose →
          p'.rules[k]? = some { rule with fired := false } := by
  have hmat := h.matched
  have hcov := h.covered
  have hspent : ∀ st : LegState, st.spent = true → st = .PendingClose ∨ st = .Closed ∨ st = .Cancelled := by
    intro st hst
    cases st <;> simp [LegState.spent, LegState.terminal] at hst ⊢
  refine ⟨fun rule hrule hfired i leg hi hleg => hspent _ (hcov.spent rule hrule hfired i leg hi hleg), ?_⟩
  intro p' n hrun
  obtain ⟨_, _, hmoves, hempty, _⟩ := cancelWorkingOrders_eq_ok hmat hrun
  constructor
  · intro rule hrule hfired i leg hi hleg
    have hmat' : Matched noneExpired p' := hmat.moves hmoves
    obtain ⟨hnot, _⟩ := not_exiting_of_empty hmat' hempty hleg
    have hst := hspent _ ((cancelWorkingOrders_covered hcov hmat hrun).spent rule hrule hfired i leg hi hleg)
    obtain hst | hst | hst := hst
    · exact absurd hst hnot
    · simp [Leg.live, hst]
    · simp [Leg.live, hst]
  · exact fun k rule i leg hrule _ _ hleg hst => cancelWorkingOrders_rearms hmat hrun hrule hleg hst

/-- A bought leg whose exit rule has fired. -/
def exitOps : List (Op ℚ) :=
  [.submitOpen "long" [0] .Buy 2 5, .processPending quotedMarket, .attachExitAt 0 none 7,
    .processRiskRules quotedMarket]

theorem fired_rules_protect_exit :
    ∃ p : Portfolio ℚ, exitOps.foldlM apply (empty crossSpreadFill 1 noCosts) = .ok p ∧
      p.rules.map (·.fired) = [true] ∧
      ∀ p' n, p.cancelWorkingOrders = .ok (p', n) → ∀ rule ∈ p'.rules, rule.fired = true → ∀ i leg,
        InScope rule i → p'.leg? rule.position i = some leg → leg.live = false :=
  have hrun : exitOps.foldlM apply (empty crossSpreadFill 1 noCosts) = .ok _ := rfl
  ⟨_, rfl, rfl, fun p' n hbell => ((fired_rules_protect (.of_run .init hrun)).2 p' n hbell).1⟩

end Portfolio

end Volforge
