import Volforge.Store.Correctness.Lazy
import Volforge.Store.Correctness.Reread

/-!
# `Store.Correctness.Verified` — what reading a file back proves

`write_vfday` reads the finished file back and compares it with the session it came from. What comes back need
not be what was written: `disk` is arbitrary.

## Contents
- **Columns.** On aligned columns `columnsEqual` is equality.
- **Originals.** The search for a contract by identity: `Matches`, `findOriginal_eq_some`.
- **Verification.** `verifyVfday_eq_ok` says what it checks.
- **Counting.** Distinct instruments with as many rows as the session has are those that print.
- **Soundness and completeness.** One lemma for each, and `verification_is_sound_and_complete`.
-/

namespace Volforge

open IdTable

/-! ## Columns -/

/-- Lists of one length are equal when their elements have the same values. -/
theorem eq_of_getD {α : Type} {f : α → Int} (hf : ∀ a b, f a = f b → a = b) {xs ys : List α} {d : α} {n : Nat}
    (hxs : xs.length = n) (hys : ys.length = n) (h : ∀ i < n, f (xs.getD i d) = f (ys.getD i d)) : xs = ys := by
  refine List.ext_getElem (hxs.trans hys.symm) (fun i hi hi' => hf _ _ ?_)
  have hget := h i (hxs ▸ hi)
  rw [List.getD_eq_getElem?_getD, List.getD_eq_getElem?_getD, List.getElem?_eq_getElem hi,
    List.getElem?_eq_getElem hi'] at hget
  exact hget

/-- **The comparison of columns** is equality. -/
theorem columnsEqual_iff {a b : QuoteColumns} (ha : a.Aligned) (hb : b.Aligned) : columnsEqual a b = true ↔ a = b := by
  unfold columnsEqual
  rw [Bool.and_eq_true, decide_eq_true_eq, List.all_eq_true]
  constructor
  · rintro ⟨hsize, hrows⟩
    have hrow : ∀ i < a.size, a.atRow i = b.atRow i := fun i hi => of_decide_eq_true (hrows i (List.mem_range.mpr hi))
    have hts : b.ts.length = a.size := hsize.symm
    have h32 : ∀ x y : Int32, x.toInt = y.toInt → x = y := fun _ _ h => Int32.toInt_inj.mp h
    have h64 : ∀ x y : Int64, x.toInt = y.toInt → x = y := fun _ _ h => Int64.toInt_inj.mp h
    obtain ⟨ts, last, bid, ask, bidQty, askQty, lastQty, openInterest⟩ := a
    obtain ⟨ts', last', bid', ask', bidQty', askQty', lastQty', openInterest'⟩ := b
    rw [QuoteColumns.mk.injEq]
    exact ⟨eq_of_getD h64 rfl hts (fun i hi => congrArg Quote.ts (hrow i hi)),
      eq_of_getD h32 ha.last (hb.last.trans hts) (fun i hi => congrArg Quote.last (hrow i hi)),
      eq_of_getD h32 ha.bid (hb.bid.trans hts) (fun i hi => congrArg Quote.bid (hrow i hi)),
      eq_of_getD h32 ha.ask (hb.ask.trans hts) (fun i hi => congrArg Quote.ask (hrow i hi)),
      eq_of_getD h32 ha.bidQty (hb.bidQty.trans hts) (fun i hi => congrArg Quote.bidQty (hrow i hi)),
      eq_of_getD h32 ha.askQty (hb.askQty.trans hts) (fun i hi => congrArg Quote.askQty (hrow i hi)),
      eq_of_getD h32 ha.lastQty (hb.lastQty.trans hts) (fun i hi => congrArg Quote.lastQty (hrow i hi)),
      eq_of_getD h64 ha.openInterest (hb.openInterest.trans hts) (fun i hi => congrArg Quote.openInterest (hrow i hi))⟩
  · rintro rfl
    exact ⟨rfl, fun i _ => decide_eq_true rfl⟩

/-! ## Originals -/

/-- The fields of a contract that are compared. -/
structure SameTerms (s spec : InstrumentSpec) : Prop where
  kind : s.kind = spec.kind
  expiry : s.expiry = spec.expiry
  strike : s.strike = spec.strike
  right : s.right = spec.right
  lotSize : s.lotSize = spec.lotSize

/-- The session lists the contract under this id. -/
def SessionData.Matches (session : SessionData) (spec : InstrumentSpec) (name : Bytes) (id : InstrumentId) : Prop :=
  ∃ s, session.registry.spec id = .ok s ∧ SameTerms s spec ∧ session.registry.underlyingName s.underlying = .ok name

theorem sameIdentity_eq_true {session : SessionData} {s spec : InstrumentSpec} {name : Bytes} :
    sameIdentity session s spec name = .ok true ↔
      SameTerms s spec ∧ session.registry.underlyingName s.underlying = .ok name := by
  unfold sameIdentity
  constructor
  · intro h
    split_ifs at h with hterms
    swap
    · cases h
    obtain ⟨hkind, hexpiry, hstrike, hright, hlot⟩ := hterms
    obtain ⟨name', hname, heq⟩ := Run.bind_eq_ok.mp h
    cases heq' : decide (name' = name) with
    | false =>
        rw [Run.pure_eq_ok, heq'] at heq
        cases heq
    | true =>
        rw [of_decide_eq_true heq'] at hname
        exact ⟨⟨hkind, hexpiry, hstrike, hright, hlot⟩, hname⟩
  · rintro ⟨hterms, hname⟩
    rw [if_pos ⟨hterms.kind, hterms.expiry, hterms.strike, hterms.right, hterms.lotSize⟩, hname]
    simp

/-- The comparison fails only on an underlying that is unknown. -/
theorem exists_sameIdentity {session : SessionData} {s : InstrumentSpec} {name' : Bytes}
    (hname : session.registry.underlyingName s.underlying = .ok name') (spec : InstrumentSpec) (name : Bytes) :
    ∃ b, sameIdentity session s spec name = .ok b := by
  unfold sameIdentity
  split_ifs
  · rw [hname]
    exact ⟨_, rfl⟩
  · exact ⟨_, rfl⟩

/-- What the search finds is listed and is the contract. -/
theorem findOriginal_eq_some {session : SessionData} {spec : InstrumentSpec} {name : Bytes} {ids : List InstrumentId}
    {original : InstrumentId} (h : findOriginal session spec name ids = .ok (some original)) :
    original ∈ ids ∧ session.Matches spec name original := by
  induction ids with
  | nil => cases h
  | cons candidate rest ih =>
      unfold findOriginal at h
      obtain ⟨s, hspec, h⟩ := Run.bind_eq_ok.mp h
      obtain ⟨same, hsame, h⟩ := Run.bind_eq_ok.mp h
      cases same with
      | true =>
          rw [if_pos rfl] at h
          cases h
          obtain ⟨hterms, hname⟩ := sameIdentity_eq_true.mp hsame
          exact ⟨List.mem_cons_self .., s, hspec, hterms, hname⟩
      | false =>
          rw [if_neg Bool.false_ne_true] at h
          obtain ⟨hmem, hmatches⟩ := ih h
          exact ⟨List.mem_cons_of_mem _ hmem, hmatches⟩

/-- Among instruments that resolve, the search finds the only one that is the contract. -/
theorem findOriginal_of_unique {session : SessionData} {spec : InstrumentSpec} {name : Bytes} {ids : List InstrumentId}
    {original : InstrumentId} (hresolves : ∀ id ∈ ids, ∃ i, session.ItemOf id i)
    (honly : ∀ id ∈ ids, session.Matches spec name id → id = original) (hmem : original ∈ ids)
    (hmatches : session.Matches spec name original) : findOriginal session spec name ids = .ok (some original) := by
  induction ids with
  | nil => cases hmem
  | cons candidate rest ih =>
      obtain ⟨i, hi⟩ := hresolves candidate (List.mem_cons_self ..)
      obtain ⟨same, hsame⟩ := exists_sameIdentity hi.name spec name
      unfold findOriginal
      rw [hi.spec, Run.ok_bind, hsame, Run.ok_bind]
      cases same with
      | true =>
          obtain ⟨hterms, hname⟩ := sameIdentity_eq_true.mp hsame
          rw [if_pos rfl, honly candidate (List.mem_cons_self ..) ⟨_, hi.spec, hterms, hname⟩]
          rfl
      | false =>
          have hne : original ≠ candidate := by
            rintro rfl
            obtain ⟨s, hs, hterms, hname⟩ := hmatches
            rw [hi.spec] at hs
            cases hs
            rw [sameIdentity_eq_true.mpr ⟨hterms, hname⟩] at hsame
            cases hsame
          rw [if_neg Bool.false_ne_true]
          exact ih (fun id hid => hresolves id (List.mem_cons_of_mem _ hid))
            (fun id hid => honly id (List.mem_cons_of_mem _ hid)) ((List.mem_cons.mp hmem).resolve_left hne)

/-! ## Verification -/

theorem forM_eq_ok {ε α : Type} {f : α → Except ε Unit} {xs : List α} :
    xs.forM f = .ok () ↔ ∀ x ∈ xs, f x = .ok () := by
  induction xs with
  | nil => exact iff_of_true rfl (List.forall_mem_nil _)
  | cons x xs ih =>
      rw [List.forall_mem_cons, ← ih]
      refine Run.bind_eq_ok.trans ?_
      exact ⟨fun ⟨_, hx, hxs⟩ => ⟨hx, hxs⟩, fun ⟨hx, hxs⟩ => ⟨(), hx, hxs⟩⟩

/-- An instrument of the file that was read back, checked: the session lists its contract, with its columns. -/
structure ReadBack (session : SessionData) (s : VfdaySession) (r : InstrumentRegistry) (written : InstrumentId)
    (original : InstrumentId) : Prop where
  listed : original ∈ session.instruments
  contract : ∃ spec name, r.spec written = .ok spec ∧ r.underlyingName spec.underlying = .ok name ∧
    session.Matches spec name original
  columns : s.quotes written = .ok (session.quotes original)

/-- The step lemma of the verification. -/
theorem readBack_of_verifyInstrument {session : SessionData} {path : String} {s : VfdaySession} {r : InstrumentRegistry}
    {written : InstrumentId} (hs : s.Listed) (hc : session.Contract) (hlisted : written ∈ s.instruments)
    (h : verifyInstrument session path s r written = .ok ()) : ∃ original, ReadBack session s r written original := by
  unfold verifyInstrument at h
  obtain ⟨spec, hspec, h⟩ := Run.bind_eq_ok.mp h
  obtain ⟨name, hname, h⟩ := Run.bind_eq_ok.mp h
  obtain ⟨found, hfound, h⟩ := Run.bind_eq_ok.mp h
  cases found with
  | none => cases h
  | some original =>
      obtain ⟨columns, hcolumns, h⟩ := Run.bind_eq_ok.mp h
      have hequal := failIf_eq_ok.mp h
      rw [Bool.not_eq_false] at hequal
      have hentry : (s.entries.lookup written).isSome = true :=
        (VfdaySession.lookup_isSome_iff s.entries written).mpr (hs.keys ▸ hlisted)
      obtain ⟨e, he⟩ := Option.isSome_iff_exists.mp hentry
      have haligned := (VfdaySession.quotes_checked he hcolumns).aligned
      rw [← (columnsEqual_iff (hc.aligned original) haligned).mp hequal] at hcolumns
      obtain ⟨hmem, hmatches⟩ := findOriginal_eq_some hfound
      exact ⟨original, hmem, ⟨spec, name, hspec, hname, hmatches⟩, hcolumns⟩

/-- **What the verification checks** of a file that opens. -/
theorem verifyVfday_eq_ok {session : SessionData} {path : String} {count : Nat} {file : Bytes} :
    verifyVfday session path count file = .ok () ↔
      ∃ s r, VfdaySession.openFile path file {} = (.ok s, r) ∧ s.date = session.date ∧
        s.totalRows.toNat = session.totalObservations ∧ s.instruments.length = count ∧
        (session.timeline = [] ∨ s.timeline = session.timeline) ∧
        ∀ written ∈ s.instruments, verifyInstrument session path s r written = .ok () := by
  unfold verifyVfday
  generalize VfdaySession.openFile path file {} = result
  obtain ⟨opened, r⟩ := result
  cases opened with
  | error x =>
      constructor
      · intro h
        cases h
      · rintro ⟨s, r', h, _⟩
        cases h
  | ok s =>
      dsimp only
      constructor
      · intro h
        obtain ⟨_, hdate, h⟩ := Run.bind_eq_ok.mp h
        obtain ⟨_, htotal, h⟩ := Run.bind_eq_ok.mp h
        obtain ⟨_, hcount, h⟩ := Run.bind_eq_ok.mp h
        obtain ⟨_, _, h⟩ := Run.bind_eq_ok.mp h
        obtain ⟨_, htimeline, h⟩ := Run.bind_eq_ok.mp h
        obtain ⟨_, hall, _⟩ := Run.bind_eq_ok.mp h
        refine ⟨s, r, rfl, not_not.mp (failIf_eq_ok.mp hdate), not_not.mp (failIf_eq_ok.mp htotal),
          not_not.mp (failIf_eq_ok.mp hcount), ?_, forM_eq_ok.mp hall⟩
        have hboth := failIf_eq_ok.mp htimeline
        rw [not_and_or, not_not, not_not] at hboth
        exact hboth
      · rintro ⟨s', r', hopen, hdate, htotal, hcount, htimeline, hall⟩
        cases hopen
        have hlength : ¬ (session.timeline ≠ [] ∧ s.timeline.length ≠ session.timeline.length) := by
          rintro ⟨hsome, hlen⟩
          exact hlen (congrArg List.length (htimeline.resolve_left hsome))
        have hsame : ¬ (session.timeline ≠ [] ∧ s.timeline ≠ session.timeline) := by
          rintro ⟨hsome, hne⟩
          exact hne (htimeline.resolve_left hsome)
        rw [failIf_of_not (not_not.mpr hdate), Run.ok_bind, failIf_of_not (not_not.mpr htotal),
          Run.ok_bind, failIf_of_not (not_not.mpr hcount), Run.ok_bind, failIf_of_not hlength,
          Run.ok_bind, failIf_of_not hsame, Run.ok_bind, forM_eq_ok.mpr hall, Run.ok_bind]
        exact failIf_of_not (not_not.mpr hcount)

/-! ## Counting -/

/-- Distinct things that weigh as much as all that have weight, and are as many, are those. -/
theorem perm_of_weight {ι : Type} [DecidableEq ι] (weight : ι → Nat) {xs ys : List ι} (hxs : xs.Nodup) (hys : ys.Nodup)
    (hlen : xs.length = ys.length) (hpos : ∀ y ∈ ys, 0 < weight y) (hmem : ∀ x ∈ xs, 0 < weight x → x ∈ ys)
    (hsum : (xs.map weight).sum = (ys.map weight).sum) : xs.Perm ys := by
  rw [← List.sum_toFinset weight hxs, ← List.sum_toFinset weight hys] at hsum
  -- what is not among the others weighs nothing
  have hinter : ∑ x ∈ xs.toFinset ∩ ys.toFinset, weight x = ∑ x ∈ xs.toFinset, weight x := by
    refine Finset.sum_subset Finset.inter_subset_left (fun x hx hnot => ?_)
    by_contra hweight
    have hmem' := hmem x (List.mem_toFinset.mp hx) (Nat.pos_of_ne_zero hweight)
    exact hnot (Finset.mem_inter.mpr ⟨hx, List.mem_toFinset.mpr hmem'⟩)
  have hsub : ys.toFinset ⊆ xs.toFinset := by
    intro y hy
    by_contra hnot
    have hlt : ∑ x ∈ xs.toFinset ∩ ys.toFinset, weight x < ∑ x ∈ ys.toFinset, weight x :=
      Finset.sum_lt_sum_of_subset Finset.inter_subset_right hy (fun h => hnot (Finset.mem_inter.mp h).1)
        (hpos y (List.mem_toFinset.mp hy)) (fun _ _ _ => Nat.zero_le _)
    exact absurd (hinter.trans hsum) (ne_of_lt hlt)
  have heq : ys.toFinset = xs.toFinset := by
    refine Finset.eq_of_subset_of_card_le hsub (le_of_eq ?_)
    rw [List.toFinset_card_of_nodup hxs, List.toFinset_card_of_nodup hys, hlen]
  exact List.perm_of_nodup_nodup_toFinset_eq hxs hys heq.symm

/-- What different things are related to is different, where nothing is related to by two. -/
theorem nodup_of_related {ι κ : Type} {R : ι → κ → Prop} {xs : List ι} {ys : List κ} (h : List.Forall₂ R xs ys)
    (hinj : ∀ x x' y, R x y → R x' y → x = x') (hxs : xs.Nodup) : ys.Nodup := by
  induction h with
  | nil => exact List.nodup_nil
  | @cons x y xs ys hxy hrest ih =>
      obtain ⟨hnew, hxs⟩ := List.nodup_cons.mp hxs
      refine List.nodup_cons.mpr ⟨fun hy => hnew ?_, ih hxs⟩
      obtain ⟨x', hx', hr⟩ := exists_of_mem_right hrest hy
      rw [hinj x x' y hxy hr]
      exact hx'

theorem VfdaySession.sound_of_openFile {path : String} {file : Bytes} {r r' : InstrumentRegistry} {s : VfdaySession}
    (hr : r.Sound) (h : openFile path file r = (.ok s, r')) : r'.Sound := by
  obtain ⟨m, ts, _, _, _, _, _, rfl⟩ := openFile_eq_ok.mp h
  exact (registerMany_spec hr m ts).1

/-- Two instruments of the file with one original are the same. -/
theorem ReadBack.unique {session : SessionData} {s : VfdaySession} {r : InstrumentRegistry} (hr : r.Sound)
    {written written' original : InstrumentId} (h : ReadBack session s r written original)
    (h' : ReadBack session s r written' original) : written = written' := by
  obtain ⟨spec, name, hspec, hname, t, ht, hterms, htname⟩ := h.contract
  obtain ⟨spec', name', hspec', hname', t', ht', hterms', htname'⟩ := h'.contract
  rw [ht] at ht'
  cases ht'
  rw [htname] at htname'
  cases htname'
  have hunderlying := hr.names.unique (InstrumentRegistry.underlyingName_eq_ok.mp hname)
    (InstrumentRegistry.underlyingName_eq_ok.mp hname') rfl
  refine hr.keys.unique (InstrumentRegistry.spec_eq_ok.mp hspec) (InstrumentRegistry.spec_eq_ok.mp hspec') ?_
  unfold InstrumentRegistry.keyOf
  rw [hunderlying, ← hterms.kind, ← hterms'.kind, ← hterms.expiry, ← hterms'.expiry, ← hterms.strike, ← hterms'.strike,
    ← hterms.right, ← hterms'.right]

/-- The originals have as many rows as the file. -/
theorem rows_of_originals {session : SessionData} {s : VfdaySession} {r : InstrumentRegistry} (hs : s.Listed)
    {originals : List InstrumentId} (h : List.Forall₂ (ReadBack session s r) s.instruments originals) :
    (originals.map (fun id => (session.quotes id).size)).sum = s.totalRows.toNat := by
  have hkeys := hs.keys ▸ hs.nodup
  have hentries : s.entries.map (fun x => x.2.rowCount.toNat) =
      s.instruments.map (fun id => ((s.entries.lookup id).map (fun e => e.rowCount.toNat)).getD 0) := by
    rw [← hs.keys, List.map_map]
    refine List.map_congr_left (fun x hx => ?_)
    simp [Memo.lookup_of_mem hkeys hx]
  have hsizes : s.instruments.map (fun id => ((s.entries.lookup id).map (fun e => e.rowCount.toNat)).getD 0) =
      originals.map (fun id => (session.quotes id).size) := by
    refine map_eq_map (with_mem h) ?_
    rintro written original ⟨⟨hwritten, _⟩, hback⟩
    obtain ⟨e, he⟩ := Option.isSome_iff_exists.mp ((VfdaySession.lookup_isSome_iff s.entries written).mpr (hs.keys ▸ hwritten))
    rw [he, (VfdaySession.quotes_checked he hback.columns).rows]
    rfl
  rw [← hsizes, ← hentries, hs.rows]

/-- The directory has an entry for every instrument that prints. -/
theorem Writer.length_directory {session : SessionData} {w : Writer}
    (hloop : session.instruments.foldlM (Writer.step session) {} = .ok w) : w.directory.length = session.printing.length := by
  have hstores := (Writer.stores_empty.run hloop).directory.length_eq
  rw [List.nil_append, List.length_map] at hstores
  exact hstores.symm

/-! ## Soundness and completeness -/

/-- The opened session has what the written one had, as far as the verification compares them: everything but the
    tick sizes. -/
structure Verified (session : SessionData) (s : VfdaySession) (r : InstrumentRegistry) : Prop where
  date : s.date = session.date
  total : s.totalRows.toNat = session.totalObservations
  timeline : session.timeline = [] ∨ s.timeline = session.timeline
  contracts : ∃ originals, originals.Perm session.printing ∧
    List.Forall₂ (ReadBack session s r) s.instruments originals

/-- Where `write_vfday` returns, the bytes it has read back open as a file that holds the session. -/
theorem verified_of_writeVerified {disk : Bytes → Bytes} {session : SessionData} (hc : session.Contract) {path : String}
    {stats : VfdayStats} (h : writeVerified disk session path true = .ok stats) :
    ∃ file s r, writeVfday session = .ok file ∧ VfdaySession.openFile path (disk file) {} = (.ok s, r) ∧
      Verified session s r := by
  unfold writeVerified at h
  obtain ⟨w, hloop, h⟩ := Run.bind_eq_ok.mp h
  obtain ⟨file, hfile, h⟩ := Run.bind_eq_ok.mp h
  obtain ⟨_, hverify, h⟩ := Run.bind_eq_ok.mp h
  obtain ⟨s, r, hopen, hdate, htotal, hcount, htimeline, hall⟩ := verifyVfday_eq_ok.mp hverify
  have hlisted := VfdaySession.listed_of_openFile hopen
  have hsound := VfdaySession.sound_of_openFile InstrumentRegistry.sound_empty hopen
  have hcount := hcount.trans (Writer.length_directory hloop)
  obtain ⟨originals, horiginals⟩ := exists_related (R := ReadBack session s r)
    (fun written hwritten => readBack_of_verifyInstrument hlisted hc hwritten (hall written hwritten))
  have hperm : originals.Perm session.printing := by
    refine perm_of_weight (fun id => (session.quotes id).size) ?_ (hc.nodup.filter _) ?_ ?_ ?_ ?_
    · exact nodup_of_related horiginals (fun _ _ _ hback hback' => hback.unique hsound hback') hlisted.nodup
    · rw [← horiginals.length_eq, hcount]
    · intro id hid
      have hsome := (List.mem_filter.mp hid).2
      refine List.length_pos_of_ne_nil (fun hnil => ?_)
      rw [QuoteColumns.isEmpty, hnil] at hsome
      cases hsome
    · intro id hid hpos
      obtain ⟨_, _, hback⟩ := exists_of_mem_right horiginals hid
      refine List.mem_filter.mpr ⟨hback.listed, ?_⟩
      rw [QuoteColumns.isEmpty_eq_false hpos]
      rfl
    · rw [rows_of_originals hlisted horiginals, htotal, hc.total]
      exact (SessionData.sum_printing session session.instruments).symm
  exact ⟨file, s, r, hfile, hopen, hdate, htotal, htimeline, originals, hperm, horiginals⟩

/-- An instrument that was written is found and compared equal. -/
theorem verifyInstrument_of_written {session : SessionData} (hreg : session.Registered) {path : String}
    {s : VfdaySession} {r : InstrumentRegistry} {id id' : InstrumentId} (hid : id ∈ session.instruments) {i : Item}
    (hi : session.ItemOf id i) {u : UnderlyingId} (hu : r.underlyingName u = .ok i.name)
    (hspec : r.spec id' = .ok { i.spec with id := id', underlying := u })
    (hquotes : s.quotes id' = .ok (session.quotes id)) : verifyInstrument session path s r id' = .ok () := by
  have hmatches : session.Matches { i.spec with id := id', underlying := u } i.name id :=
    ⟨i.spec, hi.spec, ⟨rfl, rfl, rfl, rfl, rfl⟩, hi.name⟩
  have honly : ∀ other ∈ session.instruments,
      session.Matches { i.spec with id := id', underlying := u } i.name other → other = id := by
    rintro other hother ⟨t, ht, hterms, hname⟩
    obtain ⟨j, hj⟩ := hreg.resolves other hother
    refine hreg.distinct other hother id hid j i hj hi ?_
    have hjspec : j.spec = t := Except.ok.inj (hj.spec.symm.trans ht)
    have hjname : j.name = i.name := by
      have := hj.name
      rw [hjspec, hname] at this
      exact (Except.ok.inj this).symm
    unfold Item.identity InstrumentRegistry.keyOf
    rw [hjspec, hjname, hterms.kind, hterms.expiry, hterms.strike, hterms.right]
  unfold verifyInstrument
  rw [hspec, Run.ok_bind, hu, Run.ok_bind, findOriginal_of_unique hreg.resolves honly hid hmatches, Run.ok_bind]
  dsimp only
  rw [hquotes, Run.ok_bind]
  refine failIf_of_not (fun hfalse => ?_)
  unfold columnsEqual at hfalse
  simp at hfalse

/-- A session that fits the format passes the verification of its own file. -/
theorem writeVerified_of_written {session : SessionData} (hc : session.Contract) (hreg : session.Registered)
    {w : Writer} {items : List Item} (hw : session.Written w items) {disk : Bytes → Bytes}
    (hdisk : disk (w.image session (timelineOf session)).bytes = (w.image session (timelineOf session)).bytes)
    (path : String) : writeVerified disk session path true = .ok
      { instruments := session.printing.length
        rows := session.totalObservations
        timestamps := (timelineOf session).length
        bytes := (w.image session (timelineOf session)).bytes.length } := by
  have hopen := hw.opens path InstrumentRegistry.sound_empty
  have hverify : verifyVfday session path session.printing.length (w.image session (timelineOf session)).bytes = .ok () := by
    refine verifyVfday_eq_ok.mpr ⟨_, _, hopen, rfl, hw.reread_total path, (hw.reread_empty path).length_eq.symm, ?_, ?_⟩
    · rw [hw.reread_timeline hc path]
      exact hc.timeline.imp_right (fun h => (SessionData.timelineOf_spec hc).unique h)
    · intro written hwritten
      obtain ⟨id, hid, hquotes, i, u, hi, hu, hspec⟩ := exists_of_mem_right (hw.reread_empty path) hwritten
      exact verifyInstrument_of_written hreg (List.mem_filter.mp hid).1 hi
        (InstrumentRegistry.underlyingName_eq_ok.mpr hu) (InstrumentRegistry.spec_eq_ok.mpr hspec) hquotes
  have hsize := hw.described.length_bytes ▸ hw.described.size_lt
  obtain ⟨w', hloop, hfile⟩ := Run.bind_eq_ok.mp hw.file
  -- the header that is read back is the one whose size is reported
  have hheader : (headerOf session w' (timelineOf session)).fileBytes =
      Int64.ofNat (w.image session (timelineOf session)).bytes.length := by
    obtain ⟨m, _, hm, _⟩ := VfdaySession.openFile_eq_ok.mp hopen
    have hread : m.header = headerOf session w' (timelineOf session) := by
      rw [hm.header.header, ← Except.ok.inj hfile, FileHeader.read_bytes rfl]
    rw [← hread]
    exact hm.header.fileBytes
  unfold writeVerified
  rw [hloop, Run.ok_bind, hw.file, Run.ok_bind, if_pos rfl, hdisk, Writer.length_directory hloop, hverify, Run.ok_bind,
    hheader, Run.pure_eq_ok]
  have hbytes : (Int64.ofNat (w.image session (timelineOf session)).bytes.length).toUInt64.toNat =
      (w.image session (timelineOf session)).bytes.length := by
    have hto := toNat_toUInt64_of_nonneg (x := Int64.ofNat (w.image session (timelineOf session)).bytes.length)
      (by rw [Int64.toInt_ofNat_of_lt hsize]; exact Int.natCast_nonneg _)
    rw [Int64.toInt_ofNat_of_lt hsize] at hto
    exact Int.ofNat.inj hto
  rw [hbytes]

/-- **The verification of `write_vfday`.** Whatever the disk does with the file, where it returns, the bytes it has
    read back open as a file that holds the session: the instruments that print, each once, with its columns. And a
    session that fits the format passes it when the disk gives back what was put there. -/
theorem verification_is_sound_and_complete {session : SessionData} (hc : session.Contract) (path : String) :
    (∀ disk stats, writeVerified disk session path true = .ok stats →
      ∃ file s r, writeVfday session = .ok file ∧ VfdaySession.openFile path (disk file) {} = (.ok s, r) ∧
        Verified session s r) ∧
    (session.Registered → session.FitsFormat → (timelineOf session).length < 2 ^ 32 →
      ∃ file, writeVfday session = .ok file ∧ ∀ disk, disk file = file →
        writeVerified disk session path true = .ok
          { instruments := session.printing.length
            rows := session.totalObservations
            timestamps := (timelineOf session).length
            bytes := file.length }) := by
  refine ⟨fun disk stats h => verified_of_writeVerified hc h, fun hreg hfits htimeline => ?_⟩
  obtain ⟨w, items, hw⟩ := SessionData.exists_written hc hreg hfits htimeline
  exact ⟨_, hw.file, fun disk hdisk => writeVerified_of_written hc hreg hw hdisk path⟩

/-- Two rows of one instrument, on a disk that keeps what it is given. -/
theorem verification_is_sound_and_complete_flat : ∃ file s r,
    writeVfday (flatSession ⟨20250701⟩ [1, 2]) = .ok file ∧
      VfdaySession.openFile "2025-07-01.vfday" file {} = (.ok s, r) ∧ Verified (flatSession ⟨20250701⟩ [1, 2]) s r := by
  have hc : (flatSession ⟨20250701⟩ [1, 2]).Contract := flatSession_contract _ (by decide) (by decide)
  obtain ⟨hsound, hcomplete⟩ := verification_is_sound_and_complete hc "2025-07-01.vfday"
  obtain ⟨_, _, hverified⟩ := hcomplete (flatSession_registered _ _) (flatSession_fitsFormat _ (by decide))
    (by decide +kernel)
  exact hsound (fun b => b) _ (hverified (fun b => b) rfl)

end Volforge
