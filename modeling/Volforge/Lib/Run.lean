import Mathlib.Tactic

/-!
# `Lib.Run` — runs of a fallible step function

A program that loops over events and may fail is a fold of `step : S → E → Except ε S` over the list of
events. This file is the induction toolkit for such folds, over arbitrary states, events and errors.

## Contents
- **Bind.** `bind_eq_ok` peels one computation off a successful `do` block; `succeeds` tests a result and
  `Alike` compares two.
- **Runs.** `foldlM_ok_append` splits a run at any point; `foldlM_inv` carries an invariant through it.
- **Both ways a run can end.** `Ends P Q` says what a computation that succeeds satisfies and why one fails.
- **Conditions along a run.** `Along step C s es` says that `C` holds of the state and the event at every
  step the run actually takes; `along_inv` is the invariant rule that may assume it, and `along_iff` finds
  the exact condition for a property of the end.
- **Simulation.** `foldlM_sim` runs a second machine in lock step with the first, `foldlM_alike` one that fails
  alike, `foldlM_commutes` one on the images of the states, and `foldlM_sim_select` over a part of its events.
- **Reachability.** `Reach step s₀ s`: some sequence of events leads from `s₀` to `s`.
-/

namespace Run

variable {S T E ε α β : Type}

/-! ## Bind -/

theorem bind_eq_ok {x : Except ε α} {f : α → Except ε β} {r : β} :
    (x >>= f) = .ok r ↔ ∃ a, x = .ok a ∧ f a = .ok r := by
  cases x with
  | error e => simp [bind, Except.bind]
  | ok a => simp [bind, Except.bind]

theorem map_eq_ok {x : Except ε α} {f : α → β} {r : β} : (f <$> x) = .ok r ↔ ∃ a, x = .ok a ∧ f a = r := by
  cases x with
  | error e => simp [Functor.map, Except.map]
  | ok a => simp [Functor.map, Except.map]

@[simp] theorem ok_bind (a : α) (f : α → Except ε β) : ((Except.ok a : Except ε α) >>= f) = f a := rfl

@[simp] theorem error_bind (e : ε) (f : α → Except ε β) :
    ((Except.error e : Except ε α) >>= f) = .error e := rfl

@[simp] theorem pure_eq_ok (a : α) : (pure a : Except ε α) = .ok a := rfl

/-- A successful `match` on a guard took the branch that does not throw. -/
theorem guard_eq_ok {c : Prop} [Decidable c] {e : ε} {x : Except ε α} {r : α} :
    (if c then .error e else x) = .ok r ↔ ¬ c ∧ x = .ok r := by
  by_cases h : c
  · simp [h]
  · simp [h]

/-- The computation succeeds with a result that passes the test. -/
def succeeds (test : α → Bool) : Except ε α → Bool
  | .ok a => test a
  | .error _ => false

theorem exists_of_succeeds (test : α → Bool) (x : Except ε α) (h : succeeds test x = true) :
    ∃ a, x = .ok a ∧ test a = true := by
  cases x with
  | error e => cases h
  | ok a => exact ⟨a, rfl, h⟩

/-- Both computations fail with the same error, or both succeed with related results. -/
inductive Alike (R : α → β → Prop) : Except ε α → Except ε β → Prop where
  | error (e : ε) : Alike R (.error e) (.error e)
  | ok {a : α} {b : β} : R a b → Alike R (.ok a) (.ok b)

theorem Alike.mono {R R' : α → β → Prop} {x : Except ε α} {y : Except ε β} (h : Alike R x y)
    (hR : ∀ a b, R a b → R' a b) : Alike R' x y := by
  cases h with
  | error e => exact .error e
  | ok hab => exact .ok (hR _ _ hab)

theorem Alike.bind {S' T' : Type} {R : α → β → Prop} {R' : S' → T' → Prop} {x : Except ε α} {y : Except ε β}
    {f : α → Except ε S'} {g : β → Except ε T'} (h : Alike R x y) (hfg : ∀ a b, R a b → Alike R' (f a) (g b)) :
    Alike R' (x >>= f) (y >>= g) := by
  cases h with
  | error e => exact .error e
  | ok hab => exact hfg _ _ hab

/-- Where the first succeeds, so does the second. -/
theorem Alike.ok_of_ok {R : α → β → Prop} {a : α} {y : Except ε β} (h : Alike R (.ok a) y) :
    ∃ b, y = .ok b ∧ R a b := by
  cases h with
  | ok hab => exact ⟨_, rfl, hab⟩

/-! ## Runs -/

@[simp] theorem foldlM_nil_ok {step : S → E → Except ε S} {s t : S} :
    ([] : List E).foldlM step s = .ok t ↔ t = s := by
  simp [List.foldlM, eq_comm]

theorem foldlM_cons_ok {step : S → E → Except ε S} {s t : S} {e : E} {es : List E} :
    (e :: es).foldlM step s = .ok t ↔ ∃ m, step s e = .ok m ∧ es.foldlM step m = .ok t := by
  rw [List.foldlM_cons, bind_eq_ok]

/-- A run over `xs ++ ys` is a run over `xs` followed by a run over `ys`. -/
theorem foldlM_ok_append {step : S → E → Except ε S} {s t : S} {xs ys : List E} :
    (xs ++ ys).foldlM step s = .ok t ↔
      ∃ m, xs.foldlM step s = .ok m ∧ ys.foldlM step m = .ok t := by
  rw [List.foldlM_append, bind_eq_ok]

theorem foldlM_ok_concat {step : S → E → Except ε S} {s t : S} {xs : List E} {e : E} :
    (xs ++ [e]).foldlM step s = .ok t ↔ ∃ m, xs.foldlM step s = .ok m ∧ step m e = .ok t := by
  rw [foldlM_ok_append]
  constructor
  · rintro ⟨m, hm, ht⟩
    obtain ⟨t', ht', hnil⟩ := foldlM_cons_ok.mp ht
    rw [foldlM_nil_ok.mp hnil]
    exact ⟨m, hm, ht'⟩
  · rintro ⟨m, hm, ht⟩
    exact ⟨m, hm, foldlM_cons_ok.mpr ⟨t, ht, foldlM_nil_ok.mpr rfl⟩⟩

/-- A loop none of whose steps fails where `P` holds, and all of whose steps keep `P`, does not fail. -/
theorem foldlM_total {step : S → E → Except ε S} (P : S → Prop) (es : List E)
    (hstep : ∀ s, ∀ e ∈ es, P s → ∃ s', step s e = .ok s' ∧ P s') {s : S} (hs : P s) :
    ∃ t, es.foldlM step s = .ok t ∧ P t := by
  induction es generalizing s with
  | nil => exact ⟨s, foldlM_nil_ok.mpr rfl, hs⟩
  | cons e es ih =>
      obtain ⟨m, hm, hP⟩ := hstep s e (List.mem_cons_self ..) hs
      obtain ⟨t, ht, hPt⟩ := ih (fun s e he => hstep s e (List.mem_cons_of_mem _ he)) hP
      exact ⟨t, foldlM_cons_ok.mpr ⟨m, hm, ht⟩, hPt⟩

/-- **Invariant rule.** What every successful step preserves, every successful run preserves. -/
theorem foldlM_inv {step : S → E → Except ε S} (P : S → Prop)
    (hstep : ∀ s e s', P s → step s e = .ok s' → P s') :
    ∀ (es : List E) (s t : S), P s → es.foldlM step s = .ok t → P t := by
  intro es
  induction es with
  | nil =>
      intro s t hs h
      rw [foldlM_nil_ok.mp h]
      exact hs
  | cons e es ih =>
      intro s t hs h
      obtain ⟨m, hm, ht⟩ := foldlM_cons_ok.mp h
      exact ih m t (hstep s e m hs hm) ht

/-- The invariant rule for a loop over a list whose members are known (`e ∈ es`). -/
theorem foldlM_inv_mem {step : S → E → Except ε S} (P : S → Prop) (es : List E)
    (hstep : ∀ s, ∀ e ∈ es, ∀ s', P s → step s e = .ok s' → P s') {s t : S} (hs : P s)
    (h : es.foldlM step s = .ok t) : P t := by
  induction es generalizing s with
  | nil =>
      rw [foldlM_nil_ok.mp h]
      exact hs
  | cons e es ih =>
      obtain ⟨m, hm, ht⟩ := foldlM_cons_ok.mp h
      exact ih (fun s e he => hstep s e (List.mem_cons_of_mem _ he))
        (hstep s e (by simp) m hs hm) ht

/-- The invariant rule for a loop that cannot fail. -/
theorem foldl_inv {f : S → E → S} (P : S → Prop) (es : List E)
    (hstep : ∀ s, ∀ e ∈ es, P s → P (f s e)) {s : S} (hs : P s) : P (es.foldl f s) := by
  induction es generalizing s with
  | nil => exact hs
  | cons e es ih =>
      exact ih (fun s e he => hstep s e (List.mem_cons_of_mem _ he)) (hstep s e (by simp) hs)

/-- The invariant rule for an invariant that also speaks of the events still to come. -/
theorem foldlM_inv_rest {step : S → E → Except ε S} (I : List E → S → Prop)
    (hstep : ∀ s e es s', I (e :: es) s → step s e = .ok s' → I es s') {es : List E} {s t : S}
    (hs : I es s) (h : es.foldlM step s = .ok t) : I [] t := by
  induction es generalizing s with
  | nil =>
      rw [foldlM_nil_ok.mp h]
      exact hs
  | cons e es ih =>
      obtain ⟨m, hm, ht⟩ := foldlM_cons_ok.mp h
      exact ih (hstep s e es m hs hm) ht

/-- The same for a loop that cannot fail. -/
theorem foldl_inv_rest {f : S → E → S} (I : List E → S → Prop) (es : List E)
    (hstep : ∀ s e es, I (e :: es) s → I es (f s e)) {s : S} (hs : I es s) : I [] (es.foldl f s) := by
  induction es generalizing s with
  | nil => exact hs
  | cons e es ih => exact ih (hstep s e es hs)

/-- A successful `mapM` succeeds on every element, in order. -/
theorem mapM_ok_iff {f : α → Except ε β} {xs : List α} {ys : List β} :
    xs.mapM f = .ok ys ↔ List.Forall₂ (fun x y => f x = .ok y) xs ys := by
  induction xs generalizing ys with
  | nil => simp [eq_comm]
  | cons x xs ih =>
      rw [List.mapM_cons, bind_eq_ok, List.forall₂_cons_left_iff]
      constructor
      · rintro ⟨y, hy, h⟩
        obtain ⟨zs, hzs, h⟩ := bind_eq_ok.mp h
        simp only [pure_eq_ok, Except.ok.injEq] at h
        exact ⟨y, zs, hy, ih.mp hzs, h.symm⟩
      · rintro ⟨y, zs, hy, hzs, rfl⟩
        exact ⟨y, hy, bind_eq_ok.mpr ⟨zs, ih.mpr hzs, rfl⟩⟩

/-- What is selected of the results is what is got from what was selected. -/
theorem mapM_select {α' β' : Type} {f : α → Except ε α'} {g : β → Except ε β'} {sel : α → Option β}
    {sel' : α' → Option β'}
    (hown : ∀ x y b, f x = .ok y → sel x = some b → ∃ b', g b = .ok b' ∧ sel' y = some b')
    (hother : ∀ x y, f x = .ok y → sel x = none → sel' y = none) {xs : List α} {ys : List α'}
    (h : xs.mapM f = .ok ys) : (xs.filterMap sel).mapM g = .ok (ys.filterMap sel') := by
  rw [mapM_ok_iff] at h ⊢
  induction h with
  | nil => exact .nil
  | @cons x y xs ys hxy _ ih =>
      cases hsel : sel x with
      | none =>
          rw [List.filterMap_cons_none hsel, List.filterMap_cons_none (hother x y hxy hsel)]
          exact ih
      | some b =>
          obtain ⟨b', hb', hsel'⟩ := hown x y b hxy hsel
          rw [List.filterMap_cons_some hsel, List.filterMap_cons_some hsel']
          exact .cons hb' ih

/-- A condition on the right-hand entries of two lists in correspondence. -/
theorem forall₂_and_right {R : α → β → Prop} {P : β → Prop} {xs : List α} {ys : List β} :
    List.Forall₂ (fun x y => R x y ∧ P y) xs ys ↔ List.Forall₂ R xs ys ∧ ∀ y ∈ ys, P y := by
  constructor
  · intro h
    induction h with
    | nil => exact ⟨.nil, by simp⟩
    | cons hxy _ ih =>
        refine ⟨.cons hxy.1 ih.1, fun y hy => ?_⟩
        obtain rfl | hy := List.mem_cons.mp hy
        · exact hxy.2
        · exact ih.2 y hy
  · rintro ⟨h, hall⟩
    induction h with
    | nil => exact .nil
    | cons hxy _ ih =>
        exact .cons ⟨hxy, hall _ (List.mem_cons_self ..)⟩ (ih (fun y hy => hall y (List.mem_cons_of_mem _ hy)))

/-! ## Both ways a run can end -/

/-- The computation succeeds with a result in `P`, or it fails and `Q` holds. -/
def Ends (P : α → Prop) (Q : Prop) : Except ε α → Prop
  | .ok a => P a
  | .error _ => Q

theorem Ends.bind {P : α → Prop} {P' : β → Prop} {Q : Prop} {x : Except ε α} {f : α → Except ε β}
    (h : Ends P Q x) (hf : ∀ a, P a → Ends P' Q (f a)) : Ends P' Q (x >>= f) := by
  cases x with
  | error e => exact h
  | ok a => exact hf a h

theorem Ends.mono {P P' : α → Prop} {Q Q' : Prop} {x : Except ε α} (h : Ends P Q x) (hP : ∀ a, P a → P' a)
    (hQ : Q → Q') : Ends P' Q' x := by
  cases x with
  | error e => exact hQ h
  | ok a => exact hP a h

/-- **Invariant rule for both ways.** The invariant speaks of the events still to come, and a step that fails does so
    for the reason `Q`. -/
theorem foldlM_ends {step : S → E → Except ε S} {Q : Prop} (I : List E → S → Prop)
    (hstep : ∀ s e es, I (e :: es) s → Ends (I es) Q (step s e)) {es : List E} {s : S} (hs : I es s) :
    Ends (I []) Q (es.foldlM step s) := by
  induction es generalizing s with
  | nil => exact hs
  | cons e es ih =>
      rw [List.foldlM_cons]
      exact (hstep s e es hs).bind (fun m hm => ih hm)

/-! ## Conditions along a run -/

/-- `C` holds of the state and the event at every step the run takes. -/
def Along (step : S → E → Except ε S) (C : S → E → Prop) : S → List E → Prop
  | _, [] => True
  | s, e :: es => C s e ∧ ∀ s', step s e = .ok s' → Along step C s' es

/-- **Invariant rule under a condition.** A step may use that the condition holds where it is taken. -/
theorem along_inv {step : S → E → Except ε S} {C : S → E → Prop} (P : S → Prop)
    (hstep : ∀ s e s', P s → C s e → step s e = .ok s' → P s') :
    ∀ (es : List E) (s t : S), P s → Along step C s es → es.foldlM step s = .ok t → P t := by
  intro es
  induction es with
  | nil =>
      intro s t hs _ h
      rw [foldlM_nil_ok.mp h]
      exact hs
  | cons e es ih =>
      intro s t hs hC h
      obtain ⟨m, hm, ht⟩ := foldlM_cons_ok.mp h
      exact ih m t (hstep s e m hs hC.1 hm) (hC.2 m hm) ht

/-- A condition that follows from an invariant of the run holds along it. -/
theorem along_of_inv {step : S → E → Except ε S} {C : S → E → Prop} (P : S → Prop)
    (hC : ∀ s e, P s → C s e) (hstep : ∀ s e s', P s → step s e = .ok s' → P s') :
    ∀ (es : List E) (s : S), P s → Along step C s es := by
  intro es
  induction es with
  | nil => intro s _; trivial
  | cons e es ih =>
      intro s hs
      exact ⟨hC s e hs, fun s' h => ih s' (hstep s e s' hs h)⟩

/-- **Exact condition of a run.** If a step establishes `P` exactly when `P` held before and the condition
    holds at it, a run establishes `P` exactly when `P` held at its start and the condition holds along it. -/
theorem along_iff {step : S → E → Except ε S} {C : S → E → Prop} (I P : S → Prop) {es : List E}
    (hstep : ∀ s, ∀ e ∈ es, ∀ s', I s → step s e = .ok s' → I s' ∧ (P s' ↔ P s ∧ C s e)) {s t : S}
    (hs : I s) (h : es.foldlM step s = .ok t) : P t ↔ P s ∧ Along step C s es := by
  induction es generalizing s with
  | nil =>
      rw [foldlM_nil_ok.mp h]
      simp [Along]
  | cons e es ih =>
      obtain ⟨m, hm, ht⟩ := foldlM_cons_ok.mp h
      obtain ⟨hI, hP⟩ := hstep s e (List.mem_cons_self ..) m hs hm
      rw [ih (fun s e he => hstep s e (List.mem_cons_of_mem _ he)) hI ht, hP, and_assoc]
      constructor
      · rintro ⟨hs, hC, hrest⟩
        refine ⟨hs, hC, fun s' hs' => ?_⟩
        rw [hm, Except.ok.injEq] at hs'
        rw [← hs']
        exact hrest
      · rintro ⟨hs, hC, hrest⟩
        exact ⟨hs, hC, hrest m hm⟩

/-! ## Simulation -/

/-- **Lock-step simulation.** If every step of the first machine is matched by a step of the second that
    keeps the states related, every run of the first is matched by a run of the second. -/
theorem foldlM_sim {step : S → E → Except ε S} {step' : T → E → Except ε T} (R : S → T → Prop)
    (es : List E)
    (hstep : ∀ s t, ∀ e ∈ es, ∀ s', R s t → step s e = .ok s' → ∃ t', step' t e = .ok t' ∧ R s' t')
    {s s' : S} {t : T} (hR : R s t) (h : es.foldlM step s = .ok s') :
    ∃ t', es.foldlM step' t = .ok t' ∧ R s' t' := by
  induction es generalizing s t with
  | nil =>
      rw [foldlM_nil_ok.mp h]
      exact ⟨t, by simp, hR⟩
  | cons e es ih =>
      obtain ⟨m, hm, ht⟩ := foldlM_cons_ok.mp h
      obtain ⟨m', hm', hR'⟩ := hstep s t e (by simp) m hR hm
      obtain ⟨t', ht', hR''⟩ :=
        ih (fun s t e he => hstep s t e (List.mem_cons_of_mem _ he)) hR' ht
      exact ⟨t', foldlM_cons_ok.mpr ⟨m', hm', ht'⟩, hR''⟩

/-- **Lock-step simulation under a condition**, of the steps that fail too. -/
theorem foldlM_alike {step : S → E → Except ε S} {step' : T → E → Except ε T} (R : S → T → Prop) {C : S → E → Prop}
    (hstep : ∀ s t e, R s t → C s e → Alike R (step s e) (step' t e)) {es : List E} {s : S} {t : T} (hR : R s t)
    (hC : Along step C s es) : Alike R (es.foldlM step s) (es.foldlM step' t) := by
  induction es generalizing s t with
  | nil => exact .ok hR
  | cons e es ih =>
      rw [List.foldlM_cons, List.foldlM_cons]
      have halike := hstep s t e hR hC.1
      generalize hx : step s e = x at halike ⊢
      generalize step' t e = y at halike ⊢
      cases halike with
      | error err => exact .error err
      | ok hst => exact ih hst (hC.2 _ hx)

/-- **Simulation by a map.** A map of the states that commutes with every step, where the invariant holds,
    commutes with the run. -/
theorem foldlM_commutes {step : S → E → Except ε S} {step' : T → E → Except ε T} (f : S → T) (I : S → Prop)
    (hstep : ∀ s e, I s → step' (f s) e = f <$> step s e) (hinv : ∀ s e s', I s → step s e = .ok s' → I s')
    {es : List E} {s : S} (hs : I s) : es.foldlM step' (f s) = f <$> es.foldlM step s := by
  induction es generalizing s with
  | nil => rfl
  | cons e es ih =>
      rw [List.foldlM_cons, List.foldlM_cons, hstep s e hs]
      cases hm : step s e with
      | error err => rfl
      | ok m => exact ih (hinv s e m hs hm)

/-- **Simulation of a part.** The second machine takes the steps of the selected events only. If it matches
    each of them and the other steps of the first machine keep the states related, then every run of the first
    is matched by the run of the second over what was selected. -/
theorem foldlM_sim_select {E' V : Type} {step : S → E → Except ε S} {step' : T → E' → Except ε T}
    (R : S → T → Prop) (sel : E → Option V) (val : E' → V)
    (hown : ∀ s t e e' s', sel e = some (val e') → R s t → step s e = .ok s' →
      ∃ t', step' t e' = .ok t' ∧ R s' t')
    (hother : ∀ s t e s', sel e = none → R s t → step s e = .ok s' → R s' t) {es : List E} {es' : List E'}
    (hes : es.filterMap sel = es'.map val) {s s' : S} {t : T} (hR : R s t) (h : es.foldlM step s = .ok s') :
    ∃ t', es'.foldlM step' t = .ok t' ∧ R s' t' := by
  induction es generalizing es' s t with
  | nil =>
      rw [foldlM_nil_ok.mp h]
      rw [List.map_eq_nil_iff.mp hes.symm]
      exact ⟨t, by simp, hR⟩
  | cons e es ih =>
      obtain ⟨m, hm, hrest⟩ := foldlM_cons_ok.mp h
      cases hsel : sel e with
      | none =>
          rw [List.filterMap_cons_none hsel] at hes
          exact ih hes (hother s t e m hsel hR hm) hrest
      | some v =>
          rw [List.filterMap_cons_some hsel] at hes
          obtain ⟨e', rest', rfl, rfl, hrest'⟩ := List.map_eq_cons_iff.mp hes.symm
          obtain ⟨m', hm', hR'⟩ := hown s t e e' m hsel hR hm
          obtain ⟨t', ht', hR''⟩ := ih hrest'.symm hR' hrest
          exact ⟨t', foldlM_cons_ok.mpr ⟨m', hm', ht'⟩, hR''⟩

/-- The same for steps that cannot fail. -/
theorem foldl_sim_select {E' V : Type} {step : S → E → S} {step' : T → E' → T} (R : S → T → Prop)
    (sel : E → Option V) (val : E' → V)
    (hown : ∀ s t e e', sel e = some (val e') → R s t → R (step s e) (step' t e'))
    (hother : ∀ s t e, sel e = none → R s t → R (step s e) t) {es : List E} {es' : List E'}
    (hes : es.filterMap sel = es'.map val) {s : S} {t : T} (hR : R s t) :
    R (es.foldl step s) (es'.foldl step' t) := by
  induction es generalizing es' s t with
  | nil =>
      rw [List.map_eq_nil_iff.mp hes.symm]
      exact hR
  | cons e es ih =>
      cases hsel : sel e with
      | none =>
          rw [List.filterMap_cons_none hsel] at hes
          exact ih hes (hother s t e hsel hR)
      | some v =>
          rw [List.filterMap_cons_some hsel] at hes
          obtain ⟨e', rest', rfl, rfl, hrest'⟩ := List.map_eq_cons_iff.mp hes.symm
          exact ih hrest'.symm (hown s t e e' hsel hR)

/-! ## Reachability -/

/-- The states some sequence of successful steps leads to. -/
inductive Reach (step : S → E → Except ε S) (s₀ : S) : S → Prop where
  | init : Reach step s₀ s₀
  | step {s e s'} : Reach step s₀ s → step s e = .ok s' → Reach step s₀ s'

/-- **Invariant rule for reachable states.** -/
theorem Reach.inv {step : S → E → Except ε S} {s₀ s : S} (P : S → Prop) (h₀ : P s₀)
    (hstep : ∀ s e s', P s → step s e = .ok s' → P s') (h : Reach step s₀ s) : P s := by
  induction h with
  | init => exact h₀
  | step _ hs ih => exact hstep _ _ _ ih hs

theorem Reach.trans {step : S → E → Except ε S} {s₀ s t : S} (h : Reach step s₀ s)
    (h' : Reach step s t) : Reach step s₀ t := by
  induction h' with
  | init => exact h
  | step _ hs ih => exact ih.step hs

/-- A successful run over a list of events is a way to reach its end. -/
theorem Reach.of_run {step : S → E → Except ε S} {s₀ s t : S} {es : List E}
    (h : Reach step s₀ s) (hrun : es.foldlM step s = .ok t) : Reach step s₀ t :=
  foldlM_inv (Reach step s₀) (fun _ _ _ hs he => hs.step he) es s t h hrun

end Run
