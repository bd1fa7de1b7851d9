import Volforge.Core.Portfolio

/-!
# `Core.Correctness.Legs` — legs and queue entries as slots

A slot is a position and a leg index. What an operation does is described slot by slot: the leg found there
(`leg?`) and the orders queued for it (`ordersFor`). Writes go to one slot; the lemmas here say that the
other slots keep what they had.

## Contents
- **Slots.** `leg?` after each write.
- **Queue.** `ordersFor` after an order is queued or taken out.
- **Life of a leg.** `LegState.Next`, the transitions a leg may make, and its terminal states.
-/

namespace Volforge

namespace LegState

/-- The transitions of one leg. It opens only where there is a market to trade in, and only the end of a
    session reverts an exit (`Open` again). -/
inductive Next (traded bell : Prop) : LegState → LegState → Prop where
  | stay (s) : Next traded bell s s
  | filled (h : traded) : Next traded bell .PendingOpen .Open
  | withdrawn : Next traded bell .PendingOpen .Cancelled
  | exiting : Next traded bell .Open .PendingClose
  | closed : Next traded bell .PendingClose .Closed
  | settled : Next traded bell .Open .Closed
  | abandoned (h : bell) : Next traded bell .PendingClose .Open

/-- No live leg comes back from here. -/
def terminal (s : LegState) : Bool := s = .Closed || s = .Cancelled

/-- Nothing of the leg is held without an exit on its way. -/
def spent (s : LegState) : Bool := s = .PendingClose || s.terminal

theorem Next.terminal_eq {traded bell : Prop} {s s' : LegState} (h : Next traded bell s s')
    (ht : s.terminal = true) : s' = s := by
  cases h <;> first | rfl | simp [terminal] at ht

theorem Next.spent {traded bell : Prop} {s s' : LegState} (h : Next traded bell s s') (hbell : ¬ bell)
    (hs : s.spent = true) : s'.spent = true := by
  cases h with
  | stay => exact hs
  | closed => rfl
  | abandoned hb => exact absurd hb hbell
  | filled => simp [LegState.spent, LegState.terminal] at hs
  | withdrawn => rfl
  | exiting => rfl
  | settled => rfl

/-- Something is held. -/
def live (s : LegState) : Bool := s = .Open || s = .PendingClose

/-- Without a market no leg becomes live. -/
theorem Next.live {traded bell : Prop} {s s' : LegState} (h : Next traded bell s s') (hquiet : ¬ traded)
    (hs : s'.live = true) : s.live = true := by
  cases h with
  | stay => exact hs
  | filled ht => exact absurd ht hquiet
  | withdrawn => simp [LegState.live] at hs
  | exiting => rfl
  | closed => rfl
  | settled => rfl
  | abandoned => rfl

end LegState

variable {F : Type}

namespace Portfolio

/-! ## Slots -/

theorem leg?_eq_some {p : Portfolio F} {id : PositionId} {i : Nat} {leg : Leg} :
    p.leg? id i = some leg ↔ ∃ pos, p.positions[id]? = some pos ∧ pos.legs[i]? = some leg := by
  simp [leg?, Option.bind_eq_some_iff]

/-- The legs of all positions. -/
theorem mem_legs {p : Portfolio F} {leg : Leg} :
    leg ∈ p.positions.flatMap (·.legs) ↔ ∃ id i, p.leg? id i = some leg := by
  rw [List.mem_flatMap]
  constructor
  · rintro ⟨pos, hpos, hleg⟩
    obtain ⟨id, hid⟩ := List.mem_iff_getElem?.mp hpos
    obtain ⟨i, hi⟩ := List.mem_iff_getElem?.mp hleg
    exact ⟨id, i, leg?_eq_some.mpr ⟨pos, hid, hi⟩⟩
  · rintro ⟨id, i, h⟩
    obtain ⟨pos, hpos, hleg⟩ := leg?_eq_some.mp h
    exact ⟨pos, List.mem_of_getElem? hpos, List.mem_of_getElem? hleg⟩

theorem atId_eq_ok {p : Portfolio F} {id : PositionId} {pos : Position} :
    p.atId id = .ok pos ↔ p.positions[id]? = some pos := by
  unfold atId
  cases p.positions[id]? with
  | none => simp
  | some pos' => simp

theorem leg?_of_position {p : Portfolio F} {id : PositionId} {pos : Position}
    (h : p.positions[id]? = some pos) (i : Nat) : p.leg? id i = pos.legs[i]? := by
  simp [leg?, h]

/-- A write changes its own slot and no other. -/
theorem leg?_modifyLeg (p : Portfolio F) (id : PositionId) (i : Nat) (f : Leg → Leg) (id' : PositionId)
    (i' : Nat) :
    (p.modifyLeg id i f).leg? id' i' =
      if id' = id ∧ i' = i then (p.leg? id i).map f else p.leg? id' i' := by
  simp only [leg?, modifyLeg, List.getElem?_modify]
  by_cases hid : id = id'
  · subst hid
    cases hpos : p.positions[id]? with
    | none => simp
    | some pos =>
        by_cases hi : i = i'
        · subst hi
          simp
        · have hi' : ¬ i' = i := fun h => hi h.symm
          simp [hi, hi']
  · have hid' : ¬ id' = id := fun h => hid h.symm
    simp [hid, hid']

theorem leg?_modifyLeg_self {p : Portfolio F} {id : PositionId} {i : Nat} {leg : Leg} (f : Leg → Leg)
    (h : p.leg? id i = some leg) : (p.modifyLeg id i f).leg? id i = some (f leg) := by
  simp [leg?_modifyLeg, h]

theorem leg?_modifyLeg_of_ne {p : Portfolio F} {id id' : PositionId} {i i' : Nat} (f : Leg → Leg)
    (h : ¬ (id' = id ∧ i' = i)) : (p.modifyLeg id i f).leg? id' i' = p.leg? id' i' := by
  rw [leg?_modifyLeg, if_neg h]

@[simp] theorem modifyLeg_length (p : Portfolio F) (id : PositionId) (i : Nat) (f : Leg → Leg) :
    (p.modifyLeg id i f).positions.length = p.positions.length := by
  simp [modifyLeg]

/-- A portfolio with the same positions has the same legs. -/
theorem leg?_congr {p q : Portfolio F} (h : p.positions = q.positions) (id : PositionId) (i : Nat) :
    p.leg? id i = q.leg? id i := by
  simp only [leg?, h]

/-- What is there after a write was there before. -/
theorem leg?_of_write {p q : Portfolio F} {id₀ : PositionId} {i₀ : Nat} {f : Leg → Leg}
    (h : q.positions = (p.modifyLeg id₀ i₀ f).positions) {id : PositionId} {i : Nat} {leg : Leg}
    (hleg : q.leg? id i = some leg) : ∃ leg₀, p.leg? id i = some leg₀ := by
  rw [leg?_congr h] at hleg
  by_cases hs : id = id₀ ∧ i = i₀
  · obtain ⟨rfl, rfl⟩ := hs
    rw [leg?_modifyLeg, if_pos ⟨rfl, rfl⟩] at hleg
    obtain ⟨leg₀, hleg₀, _⟩ := Option.map_eq_some_iff.mp hleg
    exact ⟨leg₀, hleg₀⟩
  · rw [leg?_modifyLeg_of_ne f hs] at hleg
    exact ⟨leg, hleg⟩

/-! ## Queue -/

/-- The orders queued for a slot. -/
def ordersFor (p : Portfolio F) (id : PositionId) (i : Nat) : List PendingOrder :=
  p.pending.filter (fun o => o.position = id ∧ o.legIndex = i)

theorem mem_ordersFor {p : Portfolio F} {id : PositionId} {i : Nat} {o : PendingOrder} :
    o ∈ p.ordersFor id i ↔ o ∈ p.pending ∧ o.position = id ∧ o.legIndex = i := by
  simp [ordersFor]

theorem mem_ordersFor_self {p : Portfolio F} {o : PendingOrder} (h : o ∈ p.pending) :
    o ∈ p.ordersFor o.position o.legIndex := mem_ordersFor.mpr ⟨h, rfl, rfl⟩

/-- What is left of a queue when an order is taken out was queued before. -/
theorem mem_of_taken {queue before after : List PendingOrder} {o x : PendingOrder} (h : queue = before ++ x :: after)
    (ho : o ∈ before ++ after) : o ∈ queue := by
  rw [h]
  exact ((List.sublist_cons_self x after).append_left before).subset ho

/-- Queueing an order adds it at its own slot only. -/
theorem ordersFor_append {p q : Portfolio F} {o : PendingOrder} (h : q.pending = p.pending ++ [o])
    (id : PositionId) (i : Nat) :
    q.ordersFor id i =
      if o.position = id ∧ o.legIndex = i then p.ordersFor id i ++ [o] else p.ordersFor id i := by
  simp only [ordersFor, h, List.filter_append]
  by_cases hs : o.position = id ∧ o.legIndex = i
  · simp [hs]
  · rw [if_neg hs]
    simp [hs]

/-- Taking an order out leaves the other slots alone. -/
theorem ordersFor_remove_of_ne {p q : Portfolio F} {before after : List PendingOrder} {o : PendingOrder}
    (h : p.pending = before ++ o :: after) (h' : q.pending = before ++ after) {id : PositionId} {i : Nat}
    (hne : ¬ (o.position = id ∧ o.legIndex = i)) : q.ordersFor id i = p.ordersFor id i := by
  simp [ordersFor, h, h', hne]

/-- Taking out the only order of a slot leaves none there. -/
theorem ordersFor_remove_self {p q : Portfolio F} {before after : List PendingOrder}
    {o o' : PendingOrder} (h : p.pending = before ++ o :: after) (h' : q.pending = before ++ after)
    (hone : p.ordersFor o.position o.legIndex = [o']) :
    o' = o ∧ q.ordersFor o.position o.legIndex = [] := by
  simp only [ordersFor, h, List.filter_append, List.filter_cons, and_self, decide_true, if_true] at hone
  simp only [ordersFor, h', List.filter_append]
  cases hb : before.filter (fun x => x.position = o.position ∧ x.legIndex = o.legIndex) with
  | nil =>
      rw [hb, List.nil_append, List.cons.injEq] at hone
      obtain ⟨heq, hafter⟩ := hone
      exact ⟨heq.symm, by rw [hafter]; rfl⟩
  | cons x xs =>
      rw [hb] at hone
      have hlen := congrArg List.length hone
      simp at hlen

end Portfolio

end Volforge
