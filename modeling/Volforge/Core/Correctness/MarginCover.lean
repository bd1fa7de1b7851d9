import Volforge.Core.Correctness.Universe

/-!
# `Core.Correctness.MarginCover` — which legs the margin figure covers

`Ctx::margin` passes the held options to the margin model expiry by expiry. `MarginCall` is one such call with the
slots its legs come from, and `Ctx.Covers` says that a list of calls accounts for the figure. A leg whose implied
volatility cannot be solved is left out; every other held option is in exactly one call (`margin_covers_solvable`).

## Contents
- **Entries.** `entries`, the slots and legs that are filed under an expiry, and `marginNow_eq`.
- **Groups.** Each entry is in the group of its expiry, and in no other.
- **Main result.** The calls of a book on one underlying, and a short leg that is left out.
-/

namespace Volforge

variable {F : Type} [Double F]

open Double

/-! ## Entries -/

namespace Portfolio

omit [Double F] in
/-- The legs in the order of their slots. -/
theorem map_slots (p : Portfolio F) :
    p.slots.map (fun slot => p.leg? slot.1 slot.2) = (p.positions.flatMap (·.legs)).map some := by
  have hrow : ∀ x ∈ p.positions.zipIdx, ((List.range x.1.legs.length).map (fun i => (x.2, i))).map
      (fun slot => p.leg? slot.1 slot.2) = x.1.legs.map some := by
    rintro ⟨pos, id⟩ hx
    have hpos : p.positions[id]? = some pos := List.mem_zipIdx_iff_getElem?.mp hx
    refine List.ext_getElem (by simp) (fun i _ _ => ?_)
    simp [leg?_of_position hpos]
  calc p.slots.map (fun slot => p.leg? slot.1 slot.2)
      = p.positions.zipIdx.flatMap (fun x => x.1.legs.map some) := by
        unfold slots
        rw [List.map_flatMap]
        exact List.flatMap_congr hrow
    _ = (p.positions.zipIdx.map Prod.fst).flatMap (fun pos => pos.legs.map some) := by
        rw [List.flatMap_map]
    _ = (p.positions.flatMap (·.legs)).map some := by
        rw [List.zipIdx_map_fst, List.map_flatMap]

omit [Double F] in
theorem slots_nodup (p : Portfolio F) : p.slots.Nodup := by
  refine List.nodup_flatMap.mpr ⟨fun x _ => ?_, ?_⟩
  · exact (List.nodup_range).map (fun i j h => congrArg Prod.snd h)
  · -- the slots of two positions differ in the position's number
    have hids : (p.positions.zipIdx.map Prod.snd).Nodup := by
      rw [List.zipIdx_map_snd]
      exact List.nodup_range'
    have hids := List.pairwise_map.mp hids
    refine hids.imp (fun {x y} hne slot hx hy => ?_)
    obtain ⟨i, _, rfl⟩ := List.mem_map.mp hx
    obtain ⟨j, _, heq⟩ := List.mem_map.mp hy
    exact hne (congrArg Prod.fst heq).symm

end Portfolio

/-- What a leg is filed as: its expiry, and what the margin model is told. -/
def Ctx.entryOf (c : Ctx F) (leg : Leg) : Option (Date × MarginLeg F) :=
  if !leg.live then none
  else match c.registry.spec leg.instrument with
    | .error _ => none
    | .ok spec =>
        if !spec.isOption then none
        else match c.greeks leg.instrument with
          | .ok (some g) => some (spec.expiry, ⟨spec.right, ofMinor spec.strike.toInt, leg.qty, g.iv⟩)
          | _ => none

/-- The leg is a held option whose implied volatility can be solved, and this is what it is filed as. -/
structure Ctx.Filed (c : Ctx F) (leg : Leg) (spec : InstrumentSpec) (g : GreekSet F) (x : Date × MarginLeg F) :
    Prop where
  live : leg.live = true
  resolves : c.registry.spec leg.instrument = .ok spec
  option : spec.isOption = true
  solved : c.greeks leg.instrument = .ok (some g)
  expiry : x.1 = spec.expiry
  told : x.2 = ⟨spec.right, ofMinor spec.strike.toInt, leg.qty, g.iv⟩

theorem Ctx.entryOf_eq_some {c : Ctx F} {leg : Leg} {x : Date × MarginLeg F} :
    c.entryOf leg = some x ↔ ∃ spec g, c.Filed leg spec g x := by
  constructor
  · intro h
    unfold entryOf at h
    split_ifs at h with hlive
    cases hspec : c.registry.spec leg.instrument with
    | error err => simp [hspec] at h
    | ok spec =>
        simp only [hspec] at h
        split_ifs at h with hopt
        cases hg : c.greeks leg.instrument with
        | error err => simp [hg] at h
        | ok g? =>
            cases g? with
            | none => simp [hg] at h
            | some g =>
                simp only [hg, Option.some.injEq] at h
                subst h
                exact ⟨spec, g, by simpa using hlive, hspec, by simpa using hopt, hg, rfl, rfl⟩
  · rintro ⟨spec, g, h⟩
    obtain ⟨expiry, told⟩ := x
    have hexp : expiry = spec.expiry := h.expiry
    have htold : told = _ := h.told
    simp [entryOf, h.live, h.resolves, h.option, h.solved, hexp, htold]

/-- One turn of the loop files the leg. -/
theorem Ctx.addMarginLeg_eq_ok {c : Ctx F} {acc acc' : List (Date × MarginLeg F)} {leg : Leg}
    (h : c.addMarginLeg acc leg = .ok acc') : acc' = acc ++ (c.entryOf leg).toList := by
  unfold addMarginLeg at h
  unfold entryOf
  split_ifs at h ⊢ with hlive
  · cases h
    simp
  · obtain ⟨spec, hspec, h⟩ := Run.bind_eq_ok.mp h
    simp only [hspec]
    split_ifs at h ⊢ with hopt
    · cases h
      simp
    · obtain ⟨g?, hg, h⟩ := Run.bind_eq_ok.mp h
      cases g? with
      | none =>
          cases h
          simp [hg]
      | some g =>
          cases h
          simp [hg]

/-- The slots of the legs that are filed, with what they are filed as. -/
def Ctx.entries (c : Ctx F) : List ((PositionId × Nat) × Date × MarginLeg F) :=
  c.portfolio.slots.filterMap (fun slot =>
    (c.portfolio.leg? slot.1 slot.2).bind (fun leg => (c.entryOf leg).map (fun x => (slot, x))))

theorem Ctx.mem_entries {c : Ctx F} {slot : PositionId × Nat} {x : Date × MarginLeg F} :
    (slot, x) ∈ c.entries ↔ ∃ leg spec g, c.portfolio.leg? slot.1 slot.2 = some leg ∧ c.Filed leg spec g x := by
  simp only [entries, List.mem_filterMap, Option.bind_eq_some_iff, Option.map_eq_some_iff, Prod.mk.injEq]
  constructor
  · rintro ⟨slot', _, leg, hleg, x', hx, rfl, rfl⟩
    obtain ⟨spec, g, hfiled⟩ := Ctx.entryOf_eq_some.mp hx
    exact ⟨leg, spec, g, hleg, hfiled⟩
  · rintro ⟨leg, spec, g, hleg, hfiled⟩
    exact ⟨slot, Portfolio.mem_slots hleg, leg, hleg, x, Ctx.entryOf_eq_some.mpr ⟨spec, g, hfiled⟩, rfl, rfl⟩

/-- No slot is filed twice. -/
theorem Ctx.entries_nodup (c : Ctx F) : (c.entries.map Prod.fst).Nodup := by
  refine List.Nodup.sublist ?_ c.portfolio.slots_nodup
  unfold entries
  generalize c.portfolio.slots = slots
  induction slots with
  | nil => exact .slnil
  | cons slot slots ih =>
      rw [List.filterMap_cons]
      split
      · exact ih.cons _
      · next y hy =>
        obtain ⟨leg, _, hleg⟩ := Option.bind_eq_some_iff.mp hy
        obtain ⟨x, _, rfl⟩ := Option.map_eq_some_iff.mp hleg
        exact ih.cons_cons _

theorem Ctx.entries_legs (c : Ctx F) :
    c.entries.map Prod.snd = (c.portfolio.positions.flatMap (·.legs)).filterMap c.entryOf := by
  have hentry : ∀ slot : PositionId × Nat, ((c.portfolio.leg? slot.1 slot.2).bind (fun leg =>
      (c.entryOf leg).map (fun x => (slot, x)))).map Prod.snd = (c.portfolio.leg? slot.1 slot.2).bind c.entryOf := by
    intro slot
    cases c.portfolio.leg? slot.1 slot.2 with
    | none => rfl
    | some leg =>
        show ((c.entryOf leg).map (fun x => (slot, x))).map Prod.snd = c.entryOf leg
        rw [Option.map_map]
        exact Option.map_id'
  calc c.entries.map Prod.snd
      = c.portfolio.slots.filterMap (fun slot => (c.portfolio.leg? slot.1 slot.2).bind c.entryOf) := by
        unfold entries
        rw [List.map_filterMap]
        exact List.filterMap_congr (fun slot _ => hentry slot)
    _ = (c.portfolio.slots.map (fun slot => c.portfolio.leg? slot.1 slot.2)).filterMap (·.bind c.entryOf) := by
        rw [List.filterMap_map]
        rfl
    _ = (c.portfolio.positions.flatMap (·.legs)).filterMap c.entryOf := by
        rw [c.portfolio.map_slots, List.filterMap_map]
        rfl

/-- **The figure** is the sum over the expiries of what is filed. -/
theorem Ctx.marginNow_eq {c : Ctx F} {m : MarginResult F} (h : c.marginNow = .ok m) :
    m = (byExpiry (c.entries.map Prod.snd)).foldl c.addRequirement .empty := by
  obtain ⟨legs, hloop, h⟩ := Run.bind_eq_ok.mp h
  cases h
  have hfiled := Run.foldlM_inv_rest
    (I := fun rest acc => acc ++ rest.filterMap c.entryOf =
      (c.portfolio.positions.flatMap (·.legs)).filterMap c.entryOf) ?_ (by simp) hloop
  · rw [c.entries_legs, ← hfiled]
    simp
  · rintro acc leg rest acc' hacc hstep
    rw [Ctx.addMarginLeg_eq_ok hstep, ← hacc, List.filterMap_cons]
    cases c.entryOf leg with
    | none => simp
    | some x => simp

/-! ## Groups -/

/-- The expiries under which something is filed, ascending. -/
def Ctx.filedExpiries (c : Ctx F) : List Date :=
  (c.entries.map Prod.snd).foldl (fun out x => InstrumentRegistry.insertDate x.1 out) []

theorem Ctx.mem_filedExpiries {c : Ctx F} {d : Date} : d ∈ c.filedExpiries ↔ ∃ entry ∈ c.entries, entry.2.1 = d := by
  have hloop := Run.foldl_inv_rest (f := fun (out : List Date) (x : Date × MarginLeg F) =>
      InstrumentRegistry.insertDate x.1 out)
    (fun rest out => (d ∈ out ∨ ∃ x ∈ rest, x.1 = d) ↔ ∃ x ∈ c.entries.map Prod.snd, x.1 = d)
    (c.entries.map Prod.snd) ?_ (s := []) (by simp)
  · simp only [List.not_mem_nil, false_and, exists_false, or_false] at hloop
    rw [show d ∈ c.filedExpiries ↔ _ from hloop]
    constructor
    · rintro ⟨x, hx, rfl⟩
      obtain ⟨entry, hentry, rfl⟩ := List.mem_map.mp hx
      exact ⟨entry, hentry, rfl⟩
    · rintro ⟨entry, hentry, rfl⟩
      exact ⟨entry.2, List.mem_map.mpr ⟨entry, hentry, rfl⟩, rfl⟩
  · intro out x rest hout
    rw [← hout, InstrumentRegistry.mem_insertDate]
    simp only [List.mem_cons, exists_eq_or_imp]
    rw [or_assoc, or_left_comm, @eq_comm _ d]

theorem Ctx.filedExpiries_nodup (c : Ctx F) : c.filedExpiries.Nodup := by
  have hasc : c.filedExpiries.Pairwise (· < ·) :=
    Run.foldl_inv (fun out : List Date => out.Pairwise (· < ·)) _
      (fun _ _ _ h => InstrumentRegistry.insertDate_ascending h) .nil
  exact hasc.imp (fun h => ne_of_lt h)

/-- What is filed under an expiry, with the slots it comes from. -/
def Ctx.group (c : Ctx F) (d : Date) : List ((PositionId × Nat) × Date × MarginLeg F) :=
  c.entries.filter (fun entry => entry.2.1 = d)

/-- Each entry is in one group. -/
theorem Ctx.groups_nodup (c : Ctx F) : (c.filedExpiries.flatMap (fun d => (c.group d).map Prod.fst)).Nodup := by
  refine List.nodup_flatMap.mpr ⟨fun d _ => ?_, ?_⟩
  · exact c.entries_nodup.sublist (List.filter_sublist.map _)
  · refine c.filedExpiries_nodup.imp (fun {d d'} hne slot hd hd' => ?_)
    obtain ⟨entry, hentry, rfl⟩ := List.mem_map.mp hd
    obtain ⟨entry', hentry', hslot⟩ := List.mem_map.mp hd'
    simp only [group, List.mem_filter, decide_eq_true_eq] at hentry hentry'
    -- one slot is filed once, so under one expiry
    have hsame := List.inj_on_of_nodup_map c.entries_nodup hentry'.1 hentry.1 hslot
    rw [← hentry.2, ← hentry'.2, hsame] at hne
    exact hne rfl

theorem Ctx.mem_groups {c : Ctx F} {slot : PositionId × Nat} {x : Date × MarginLeg F} (h : (slot, x) ∈ c.entries) :
    slot ∈ c.filedExpiries.flatMap (fun d => (c.group d).map Prod.fst) := by
  refine List.mem_flatMap.mpr ⟨x.1, Ctx.mem_filedExpiries.mpr ⟨_, h, rfl⟩, ?_⟩
  exact List.mem_map.mpr ⟨(slot, x), List.mem_filter.mpr ⟨h, by simp⟩, rfl⟩

/-! ## Main result -/

/-- One call of the margin model, with the slots its legs come from. -/
structure MarginCall (F : Type) where
  underlying : UnderlyingId
  expiry : Date
  slots : List (PositionId × Nat)
  legs : List (MarginLeg F)
  forward : F
  time : F

/-- The model is told about the leg of a slot: a held option of the call's underlying and expiry. -/
def Ctx.Tells (c : Ctx F) (call : MarginCall F) (slot : PositionId × Nat) (told : MarginLeg F) : Prop :=
  ∃ leg spec, c.portfolio.leg? slot.1 slot.2 = some leg ∧ leg.live = true ∧
    c.registry.spec leg.instrument = .ok spec ∧ spec.isOption = true ∧ spec.underlying = call.underlying ∧
    spec.expiry = call.expiry ∧ told.right = spec.right ∧ told.strike = ofMinor spec.strike.toInt ∧
    told.qty = leg.qty

/-- The call is about held options of one underlying and expiry, and made with its forward and time left. -/
structure Ctx.Makes (c : Ctx F) (call : MarginCall F) : Prop where
  legs : List.Forall₂ (c.Tells call) call.slots call.legs
  forward : ({ c with underlying := call.underlying } : Ctx F).forward call.expiry = some call.forward
  time : call.time = timeToExpiry c.now call.expiry c.utcOffset

/-- What the model answers to the call. -/
def Ctx.answer (c : Ctx F) (call : MarginCall F) : MarginResult F :=
  c.margin.requirement call.legs call.forward call.time c.rate

/-- **The calls account for the figure**: they are calls of the context, no leg is in two of them or twice in one,
    every held option that counts and has time left is in one, and the figure is the sum of their answers. -/
structure Ctx.Covers (c : Ctx F) (counts : Leg → Prop) (calls : List (MarginCall F)) (m : MarginResult F) : Prop where
  makes : ∀ call ∈ calls, c.Makes call
  once : (calls.flatMap (·.slots)).Nodup
  covered : ∀ id i leg spec, c.portfolio.leg? id i = some leg → leg.live = true →
    c.registry.spec leg.instrument = .ok spec → spec.isOption = true →
    lt zero (timeToExpiry c.now spec.expiry c.utcOffset : F) = true → counts leg →
    (id, i) ∈ calls.flatMap (·.slots)
  span : m.span = (calls.map (fun call => (c.answer call).span)).sum
  exposure : m.exposure = (calls.map (fun call => (c.answer call).exposure)).sum
  total : m.total = (calls.map (fun call => (c.answer call).total)).sum

/-- The implied volatility of the leg's option can be solved. -/
def Ctx.Solvable (c : Ctx F) (leg : Leg) : Prop := ∃ g, c.greeks leg.instrument = .ok (some g)

/-- Where Greeks are solved there is a forward, and time left. -/
theorem Ctx.forward_of_greeks {c : Ctx F} {id : InstrumentId} {spec : InstrumentSpec} {g : GreekSet F}
    (hspec : c.registry.spec id = .ok spec) (h : c.greeks id = .ok (some g)) :
    ∃ fwd, c.forward spec.expiry = some fwd ∧ lt zero (timeToExpiry c.now spec.expiry c.utcOffset : F) = true := by
  unfold greeks at h
  rw [hspec, Run.ok_bind] at h
  split at h
  · cases h
  split at h
  · cases h
  · split at h
    · cases h
    cases hfwd : c.forward spec.expiry with
    | none =>
        rw [hfwd] at h
        cases h
    | some fwd =>
        rw [hfwd] at h
        dsimp only at h
        split at h
        · cases h
        · next htime =>
          exact ⟨fwd, rfl, by simpa using htime⟩

/-- The call made for one expiry. -/
def Ctx.callAt (c : Ctx F) (d : Date) : MarginCall F where
  underlying := c.underlying
  expiry := d
  slots := (c.group d).map Prod.fst
  legs := (c.group d).map (fun entry => entry.2.2)
  forward := (c.forward d).getD zero
  time := timeToExpiry c.now d c.utcOffset

/-- Every expiry something is filed under has a forward and time left. -/
theorem Ctx.filed_priced {c : Ctx F} {d : Date} (hd : d ∈ c.filedExpiries) :
    c.forward d = some (c.callAt d).forward ∧ lt zero (c.callAt d).time = true := by
  obtain ⟨⟨slot, x⟩, hentry, rfl⟩ := Ctx.mem_filedExpiries.mp hd
  obtain ⟨leg, spec, g, _, hfiled⟩ := Ctx.mem_entries.mp hentry
  obtain ⟨fwd, hfwd, htime⟩ := Ctx.forward_of_greeks hfiled.resolves hfiled.solved
  show c.forward x.1 = some ((c.forward x.1).getD zero) ∧ lt zero (timeToExpiry c.now x.1 c.utcOffset : F) = true
  rw [hfiled.expiry, hfwd]
  exact ⟨rfl, htime⟩

/-- One turn of the loop over the expiries adds the answer to its call. -/
theorem Ctx.addRequirement_call {c : Ctx F} {d : Date} (hd : d ∈ c.filedExpiries) (total : MarginResult F) :
    (c.addRequirement total (d, (c.callAt d).legs)).span = total.span + (c.answer (c.callAt d)).span ∧
    (c.addRequirement total (d, (c.callAt d).legs)).exposure = total.exposure + (c.answer (c.callAt d)).exposure ∧
    (c.addRequirement total (d, (c.callAt d).legs)).total = total.total + (c.answer (c.callAt d)).total := by
  obtain ⟨hfwd, htime⟩ := Ctx.filed_priced hd
  have htime : lt zero (timeToExpiry c.now d c.utcOffset : F) = true := htime
  unfold addRequirement
  simp only [hfwd, htime, Bool.not_true, Bool.false_eq_true, if_false]
  exact ⟨rfl, rfl, rfl⟩

/-- The sum over some of the expiries. -/
theorem Ctx.addRequirements_sum {c : Ctx F} : ∀ (ds : List Date) (total : MarginResult F),
    (∀ d ∈ ds, d ∈ c.filedExpiries) →
    ((ds.map (fun d => (d, (c.callAt d).legs))).foldl c.addRequirement total).span =
        total.span + (ds.map (fun d => (c.answer (c.callAt d)).span)).sum ∧
      ((ds.map (fun d => (d, (c.callAt d).legs))).foldl c.addRequirement total).exposure =
        total.exposure + (ds.map (fun d => (c.answer (c.callAt d)).exposure)).sum ∧
      ((ds.map (fun d => (d, (c.callAt d).legs))).foldl c.addRequirement total).total =
        total.total + (ds.map (fun d => (c.answer (c.callAt d)).total)).sum
  | [], total, _ => by simp
  | d :: ds, total, h => by
      obtain ⟨hspan, hexposure, htotal⟩ := c.addRequirement_call (h d (List.mem_cons_self ..)) total
      obtain ⟨ihspan, ihexposure, ihtotal⟩ := c.addRequirements_sum ds
        (c.addRequirement total (d, (c.callAt d).legs)) (fun d' hd' => h d' (List.mem_cons_of_mem _ hd'))
      simp only [List.map_cons, List.foldl_cons, List.sum_cons]
      rw [ihspan, ihexposure, ihtotal, hspan, hexposure, htotal]
      exact ⟨add_assoc _ _ _, add_assoc _ _ _, add_assoc _ _ _⟩

theorem Ctx.byExpiry_entries (c : Ctx F) :
    byExpiry (c.entries.map Prod.snd) = c.filedExpiries.map (fun d => (d, (c.callAt d).legs)) := by
  unfold byExpiry
  refine List.map_congr_left (fun d _ => ?_)
  show (d, _) = (d, (c.group d).map (fun entry => entry.2.2))
  rw [List.filter_map, List.map_map]
  rfl

/-- **The margin figure covers the book**, as far as implied volatilities can be solved: on a book of options on the
    context's underlying, each held option that has time left and can be solved is in exactly one call, whose legs
    share its expiry; a leg in a call is passed with its solved volatility; the figure is the sum of the calls. -/
theorem margin_covers_solvable {c : Ctx F} {m : MarginResult F}
    (hbook : ∀ id i leg spec, c.portfolio.leg? id i = some leg → leg.live = true →
      c.registry.spec leg.instrument = .ok spec → spec.isOption = true → spec.underlying = c.underlying)
    (h : c.marginNow = .ok m) :
    ∃ calls, c.Covers c.Solvable calls m ∧ ∀ call ∈ calls,
      List.Forall₂ (fun slot told => ∃ leg g, c.portfolio.leg? slot.1 slot.2 = some leg ∧
        c.greeks leg.instrument = .ok (some g) ∧ told.iv = g.iv) call.slots call.legs := by
  have hfiled : ∀ d, ∀ entry ∈ c.group d, ∃ leg spec g, c.portfolio.leg? entry.1.1 entry.1.2 = some leg ∧
      c.Filed leg spec g entry.2 ∧ spec.expiry = d := by
    intro d entry hentry
    simp only [Ctx.group, List.mem_filter, decide_eq_true_eq] at hentry
    obtain ⟨leg, spec, g, hleg, hf⟩ := Ctx.mem_entries.mp hentry.1
    exact ⟨leg, spec, g, hleg, hf, by rw [← hf.expiry, hentry.2]⟩
  have hslots : (c.filedExpiries.map c.callAt).flatMap (·.slots) =
      c.filedExpiries.flatMap (fun d => (c.group d).map Prod.fst) := by
    rw [List.flatMap_map]
    rfl
  have hsum := c.addRequirements_sum c.filedExpiries .empty (fun _ hd => hd)
  rw [← c.byExpiry_entries, ← Ctx.marginNow_eq h] at hsum
  refine ⟨c.filedExpiries.map c.callAt, ⟨?_, ?_, ?_, ?_, ?_, ?_⟩, ?_⟩
  · intro call hcall
    obtain ⟨d, hd, rfl⟩ := List.mem_map.mp hcall
    refine ⟨?_, (Ctx.filed_priced hd).1, rfl⟩
    refine List.forall₂_map_left_iff.mpr (List.forall₂_map_right_iff.mpr (List.forall₂_same.mpr fun entry hentry => ?_))
    obtain ⟨leg, spec, g, hleg, hf, hexp⟩ := hfiled d entry hentry
    refine ⟨leg, spec, hleg, hf.live, hf.resolves, hf.option, ?_, hexp, ?_, ?_, ?_⟩
    · exact hbook _ _ leg spec hleg hf.live hf.resolves hf.option
    · rw [hf.told]
    · rw [hf.told]
    · rw [hf.told]
  · rw [hslots]
    exact c.groups_nodup
  · intro id i leg spec hleg hlive hspec hopt _ ⟨g, hg⟩
    rw [hslots]
    have hentry : ((id, i), spec.expiry, _) ∈ c.entries :=
      Ctx.mem_entries.mpr ⟨leg, spec, g, hleg, hlive, hspec, hopt, hg, rfl, rfl⟩
    exact Ctx.mem_groups hentry
  · rw [List.map_map]
    exact hsum.1.trans (zero_add _)
  · rw [List.map_map]
    exact hsum.2.1.trans (zero_add _)
  · rw [List.map_map]
    exact hsum.2.2.trans (zero_add _)
  · intro call hcall
    obtain ⟨d, hd, rfl⟩ := List.mem_map.mp hcall
    refine List.forall₂_map_left_iff.mpr (List.forall₂_map_right_iff.mpr (List.forall₂_same.mpr fun entry hentry => ?_))
    obtain ⟨leg, spec, g, hleg, hf, _⟩ := hfiled d entry hentry
    exact ⟨leg, g, hleg, hf.solved, by rw [hf.told]⟩

/-! ### A short call -/

/-- The tail of a normal distribution as steep as a step. -/
def steepErfc (x : ℚ) : ℚ := if x < 0 then 2 else 0

/-- Rationals with that distribution. -/
def Steep : Type := ℚ

instance : Double Steep := { (inferInstance : Double ℚ) with erfc := steepErfc }

/-- A call and a put struck at 100.00, worth 100.00 each; the call is offered at the price given. -/
def straddleMarket (ask : Price) : MarketView where
  now := 20
  registry :=
    (((({} : InstrumentRegistry).internUnderlying [78]).1.add
      { underlying := 0, kind := .Option, expiry := ⟨20250703⟩, strike := 10000, right := .Call }).1.add
        { underlying := 0, kind := .Option, expiry := ⟨20250703⟩, strike := 10000, right := .Put }).1
  quote id _ :=
    if id = 0 then some { ts := 9, last := 10000, bid := 10000, ask := ask }
    else if id = 1 then some { ts := 9, last := 10000, bid := 10000, ask := 10000 }
    else none
  hasQuote id := id = 0 || id = 1

/-- Requires one paisa for each leg it is told about. -/
def countLegs : MarginModel Steep := ⟨fun legs _ _ _ => { MarginResult.empty with total := legs.length }⟩

/-- What is seen of a portfolio while the call is offered at the price given. -/
def straddleCtx (ask : Price) (p : Portfolio Steep) : Ctx Steep where
  market := straddleMarket ask
  portfolio := p
  underlying := 0
  spot := -1
  date := ⟨20250701⟩
  utcOffset := kISTOffsetSeconds
  anchor := 0
  rate := (0 : ℚ)
  margin := countLegs
  calendar := none
  series := []

/-- Sells the call and asks for the margin while it is offered at the price given. -/
def shortCall (ask : Price) : Except Error (Portfolio Steep × MarginResult Steep) := do
  let p ← [Portfolio.Op.submitOpen "short" [0] .Sell 1 5, .processPending (straddleMarket 10000)].foldlM
    Portfolio.apply (.empty crossSpreadFill 1 noCosts)
  let m ← (straddleCtx ask p).marginNow
  return (p, m)

/-- The call is the only leg. -/
def ShortsCall (p : Portfolio Steep) : Prop :=
  p.positions.map (fun pos => pos.legs.map (fun l => (l.instrument, l.live, l.qty))) = [[(0, true, -1)]]

instance (p : Portfolio Steep) : Decidable (ShortsCall p) := inferInstanceAs (Decidable (_ = _))

theorem ShortsCall.leg {p : Portfolio Steep} (h : ShortsCall p) {id : PositionId} {i : Nat} {leg : Leg}
    (hleg : p.leg? id i = some leg) : leg.instrument = 0 := by
  obtain ⟨pos, hpos, hi⟩ := Portfolio.leg?_eq_some.mp hleg
  have hmem : (leg.instrument, leg.live, leg.qty) ∈ pos.legs.map (fun l => (l.instrument, l.live, l.qty)) :=
    List.mem_map.mpr ⟨leg, List.mem_of_getElem? hi, rfl⟩
  have hpos : pos.legs.map (fun l => (l.instrument, l.live, l.qty)) ∈ [[((0 : InstrumentId), true, (-1 : Qty))]] := by
    rw [← h]
    exact List.mem_map.mpr ⟨pos, List.mem_of_getElem? hpos, rfl⟩
  rw [List.mem_singleton.mp hpos, List.mem_singleton] at hmem
  exact congrArg Prod.fst hmem

theorem shortCall_eq_ok {ask : Price} {p : Portfolio Steep} {m : MarginResult Steep}
    (h : shortCall ask = .ok (p, m)) : (straddleCtx ask p).marginNow = .ok m := by
  obtain ⟨p', _, h⟩ := Run.bind_eq_ok.mp h
  obtain ⟨m', hm, h⟩ := Run.bind_eq_ok.mp h
  cases h
  exact hm

theorem margin_covers_solvable_short_call :
    ∃ p m calls, shortCall 10000 = .ok (p, m) ∧ (straddleCtx 10000 p).marginNow = .ok m ∧ m.total = 1 ∧
      (straddleCtx 10000 p).Covers (straddleCtx 10000 p).Solvable calls m := by
  obtain ⟨⟨p, m⟩, hrun, htest⟩ := Run.exists_of_succeeds
    (fun x : Portfolio Steep × MarginResult Steep => ShortsCall x.1 ∧ x.2.total = 1) (shortCall 10000) (by decide +kernel)
  obtain ⟨hbook, htotal⟩ := of_decide_eq_true htest
  have hm := shortCall_eq_ok hrun
  obtain ⟨calls, hcovers, _⟩ := margin_covers_solvable (fun id i leg spec hleg _ hspec _ => by
    rw [hbook.leg hleg] at hspec
    cases hspec
    rfl) hm
  exact ⟨p, m, calls, hrun, hm, htotal, hcovers⟩

/-- With no offer there is no volatility to solve, and the short call is left out. -/
theorem one_sided_short_call_is_left_out :
    ∃ p m, shortCall 0 = .ok (p, m) ∧ (straddleCtx 0 p).marginNow = .ok m ∧
      ¬ ∃ calls, (straddleCtx 0 p).Covers (fun _ => True) calls m := by
  obtain ⟨⟨p, m⟩, hrun, htest⟩ := Run.exists_of_succeeds
    (fun x : Portfolio Steep × MarginResult Steep => ShortsCall x.1 ∧ x.2.total = 0 ∧
      (x.1.leg? 0 0).any (fun l => l.live) = true) (shortCall 0) (by decide +kernel)
  obtain ⟨hbook, htotal, hheld⟩ := of_decide_eq_true htest
  obtain ⟨leg, hleg, hlive⟩ := (Option.any_eq_true _ _).mp hheld
  refine ⟨p, m, hrun, shortCall_eq_ok hrun, ?_⟩
  rintro ⟨calls, hcovers⟩
  have hspec : (straddleCtx 0 p).registry.spec leg.instrument = .ok
      { id := 0, underlying := 0, kind := .Option, expiry := ⟨20250703⟩, strike := 10000 } := by
    rw [hbook.leg hleg]
    rfl
  have htime : lt zero (timeToExpiry 20 ⟨20250703⟩ kISTOffsetSeconds : Steep) = true := by decide +kernel
  have hslot := hcovers.covered 0 0 leg _ hleg hlive hspec rfl htime trivial
  obtain ⟨call, hcall, hslot⟩ := List.mem_flatMap.mp hslot
  -- the call that has the slot has a leg, so it requires something
  have hlen := (hcovers.makes call hcall).legs.length_eq
  have hsum : ((straddleCtx 0 p).answer call).total ≤ m.total := by
    rw [hcovers.total]
    exact List.single_le_sum (fun x hx => by
      obtain ⟨call', _, rfl⟩ := List.mem_map.mp hx
      exact Int.natCast_nonneg _) _ (List.mem_map.mpr ⟨call, hcall, rfl⟩)
  have hanswer : ((straddleCtx 0 p).answer call).total = (call.legs.length : Int) := rfl
  have hpos := List.length_pos_of_mem hslot
  rw [hanswer, htotal] at hsum
  have hsum : (call.legs.length : Int) ≤ 0 := hsum
  omega

end Volforge
