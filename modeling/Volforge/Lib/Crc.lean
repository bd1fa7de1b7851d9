import Mathlib.Tactic

/-!
# `Lib.Crc` — cyclic redundancy checks, bit by bit

A reflected CRC register of `w` bits absorbs a message bit by bit: the bit is exclusive-ored into the lowest
place, the register moves down by one, and the polynomial is exclusive-ored in if a one fell out. Each step is
linear, and a step with a polynomial whose highest bit is set loses nothing.

## Contents
- **Steps.** `step_xor`, and `step_eq_zero_iff`: only the zero register steps to zero.
- **Messages.** The registers of two messages differ by the register of their difference, started from zero.
- **Bursts.** The difference of two messages that agree outside a window of `w` bits, and differ inside, leaves
  a register that is not zero: `run_ne_of_burst`. It is enough that no two differences are `w` bits apart.
-/

namespace Crc

variable {w : Nat} (poly : BitVec w)

/-! ## Steps -/

/-- One bit falls out at the low end. -/
def step (c : BitVec w) : BitVec w := if c.getLsbD 0 then poly ^^^ (c >>> 1) else c >>> 1

def steps : Nat → BitVec w → BitVec w
  | 0, c => c
  | n + 1, c => steps n (step poly c)

@[simp] theorem step_zero : step poly 0#w = 0#w := by simp [step]

theorem step_xor (a b : BitVec w) : step poly (a ^^^ b) = step poly a ^^^ step poly b := by
  unfold step
  rw [BitVec.getLsbD_xor, BitVec.ushiftRight_xor_distrib]
  cases a.getLsbD 0 with
  | false =>
      cases b.getLsbD 0 with
      | false => rfl
      | true =>
          show poly ^^^ (a >>> 1 ^^^ b >>> 1) = a >>> 1 ^^^ (poly ^^^ b >>> 1)
          rw [← BitVec.xor_assoc, BitVec.xor_comm poly, BitVec.xor_assoc]
  | true =>
      cases b.getLsbD 0 with
      | false =>
          show poly ^^^ (a >>> 1 ^^^ b >>> 1) = (poly ^^^ a >>> 1) ^^^ b >>> 1
          rw [BitVec.xor_assoc]
      | true =>
          show a >>> 1 ^^^ b >>> 1 = (poly ^^^ a >>> 1) ^^^ (poly ^^^ b >>> 1)
          rw [BitVec.xor_comm poly (a >>> 1), BitVec.xor_assoc, ← BitVec.xor_assoc poly, BitVec.xor_self,
            BitVec.zero_xor]

/-- With the highest bit of the polynomial set, a step can be undone, so only zero steps to zero. -/
theorem step_eq_zero_iff (hpoly : poly.msb = true) {c : BitVec w} : step poly c = 0#w ↔ c = 0#w := by
  constructor
  · intro h
    unfold step at h
    cases hlow : c.getLsbD 0 with
    | true =>
        have hmsb : (poly ^^^ (c >>> 1)).msb = true := by
          rw [BitVec.msb_xor, hpoly, BitVec.msb_ushiftRight]
          simp
        rw [hlow, if_pos rfl] at h
        rw [h] at hmsb
        simp at hmsb
    | false =>
        rw [hlow, if_neg (by simp)] at h
        apply BitVec.eq_of_getLsbD_eq
        intro i hi
        rw [BitVec.getLsbD_zero]
        cases i with
        | zero => exact hlow
        | succ i =>
            have hbit : (c >>> 1).getLsbD i = false := by rw [h, BitVec.getLsbD_zero]
            rw [BitVec.getLsbD_ushiftRight, Nat.add_comm] at hbit
            exact hbit
  · rintro rfl
    exact step_zero poly

theorem steps_xor (n : Nat) (a b : BitVec w) : steps poly n (a ^^^ b) = steps poly n a ^^^ steps poly n b := by
  induction n generalizing a b with
  | zero => rfl
  | succ n ih => rw [steps, step_xor, ih, steps, steps]

theorem steps_eq_zero_iff (hpoly : poly.msb = true) (n : Nat) {c : BitVec w} : steps poly n c = 0#w ↔ c = 0#w := by
  induction n generalizing c with
  | zero => rfl
  | succ n ih => rw [steps, ih, step_eq_zero_iff poly hpoly]

/-- A value with its lowest bit clear only moves down. -/
theorem step_shiftLeft {c : BitVec w} (hmsb : c.msb = false) : step poly (c <<< 1) = c := by
  unfold step
  have hlow : (c <<< 1).getLsbD 0 = false := by
    rw [BitVec.getLsbD_shiftLeft]
    simp
  rw [hlow, if_neg (by simp)]
  apply BitVec.eq_of_getLsbD_eq
  intro i hi
  rw [BitVec.getLsbD_ushiftRight, BitVec.getLsbD_shiftLeft]
  rcases Nat.lt_or_ge (1 + i) w with hlt | hge
  · simp [hlt]
  · have hlast : i = w - 1 := by omega
    have hbit : c.getLsbD i = false := by
      rw [hlast, ← BitVec.msb_eq_getLsbD_last]
      exact hmsb
    simp [Nat.not_lt.mpr hge, hbit]

/-- As long as zeros fall out, the register only moves down. -/
theorem steps_of_low_clear {n : Nat} {c : BitVec w} (hlow : ∀ i < n, c.getLsbD i = false) :
    steps poly n c = c >>> n := by
  induction n generalizing c with
  | zero => rw [steps, BitVec.ushiftRight_zero]
  | succ n ih =>
      have hstep : step poly c = c >>> 1 := by
        unfold step
        rw [hlow 0 (by omega), if_neg (by simp)]
      have hrest : ∀ i < n, (c >>> 1).getLsbD i = false := by
        intro i hi
        rw [BitVec.getLsbD_ushiftRight]
        exact hlow (1 + i) (by omega)
      rw [steps, hstep, ih hrest, ← BitVec.shiftRight_add, Nat.add_comm]

/-- `n` steps are those of the lowest `n` places, and the rest moved down. -/
theorem steps_split {n : Nat} (c low : BitVec w) (hlow : ∀ i < n, low.getLsbD i = c.getLsbD i)
    (hhigh : low >>> n = 0#w) : steps poly n c = steps poly n low ^^^ (c >>> n) := by
  have hclear : ∀ i < n, (low ^^^ c).getLsbD i = false := by
    intro i hi
    rw [BitVec.getLsbD_xor, hlow i hi, Bool.xor_self]
  have hsplit : c = low ^^^ (low ^^^ c) := by
    rw [← BitVec.xor_assoc, BitVec.xor_self, BitVec.zero_xor]
  calc steps poly n c
      = steps poly n (low ^^^ (low ^^^ c)) := by rw [← hsplit]
    _ = steps poly n low ^^^ (low ^^^ c) >>> n := by rw [steps_xor, steps_of_low_clear poly hclear]
    _ = steps poly n low ^^^ (c >>> n) := by rw [BitVec.ushiftRight_xor_distrib, hhigh, BitVec.zero_xor]

/-! ## Messages -/

/-- A bit in the lowest place. -/
def low (b : Bool) : BitVec w := if b then 1#w else 0#w

/-- The register after a message. -/
def run (c : BitVec w) (bits : List Bool) : BitVec w := bits.foldl (fun c b => step poly (c ^^^ low b)) c

theorem run_append (c : BitVec w) (bs cs : List Bool) : run poly c (bs ++ cs) = run poly (run poly c bs) cs :=
  List.foldl_append

theorem low_xor (a b : Bool) : (low (a ^^ b) : BitVec w) = low a ^^^ low b := by
  cases a with
  | false => cases b <;> simp [low]
  | true => cases b <;> simp [low]

/-- **Linearity.** -/
theorem run_xor (c c' : BitVec w) {bs bs' : List Bool} (hlen : bs.length = bs'.length) :
    run poly c bs ^^^ run poly c' bs' = run poly (c ^^^ c') (List.zipWith (· ^^ ·) bs bs') := by
  induction bs generalizing bs' c c' with
  | nil =>
      rw [List.length_eq_zero_iff.mp hlen.symm]
      rfl
  | cons b bs ih =>
      cases bs' with
      | nil => cases hlen
      | cons b' bs' =>
          have hrest : bs.length = bs'.length := Nat.succ.inj hlen
          have hstep : step poly ((c ^^^ c') ^^^ low (b ^^ b')) =
              step poly (c ^^^ low b) ^^^ step poly (c' ^^^ low b') := by
            rw [← step_xor, low_xor]
            congr 1
            rw [BitVec.xor_assoc, ← BitVec.xor_assoc c', BitVec.xor_comm c' (low b), BitVec.xor_assoc (low b),
              ← BitVec.xor_assoc]
          show run poly (step poly (c ^^^ low b)) bs ^^^ run poly (step poly (c' ^^^ low b')) bs' =
            run poly (step poly ((c ^^^ c') ^^^ low (b ^^ b'))) (List.zipWith (· ^^ ·) bs bs')
          rw [ih _ _ hrest, hstep]

/-- Zeros only step the register. -/
theorem run_zeros (c : BitVec w) (n : Nat) : run poly c (List.replicate n false) = steps poly n c := by
  induction n generalizing c with
  | zero => rfl
  | succ n ih =>
      have hzero : c ^^^ low false = c := BitVec.xor_zero
      show run poly (step poly (c ^^^ low false)) (List.replicate n false) = _
      rw [hzero, ih, steps]

/-! ## Bursts -/

/-- The bits as a register, the first one lowest. -/
def ofBits : List Bool → BitVec w
  | [] => 0#w
  | b :: bs => low b ^^^ (ofBits bs <<< 1)

theorem getLsbD_ofBits (bs : List Bool) (i : Nat) (hi : i < w) :
    (ofBits bs : BitVec w).getLsbD i = (bs[i]?).getD false := by
  induction bs generalizing i with
  | nil => simp [ofBits]
  | cons b bs ih =>
      rw [ofBits, BitVec.getLsbD_xor, BitVec.getLsbD_shiftLeft]
      cases i with
      | zero => cases b <;> simp [low, hi]
      | succ i =>
          have hlow : (low b : BitVec w).getLsbD (i + 1) = false := by
            cases b <;> simp [low, BitVec.getLsbD_one]
          rw [hlow, List.getElem?_cons_succ, ← ih i (by omega)]
          simp [hi]

/-- Absorbing at most `w` bits one at a time is absorbing them at once. -/
theorem run_eq_steps (c : BitVec w) {bs : List Bool} (hlen : bs.length ≤ w) :
    run poly c bs = steps poly bs.length (c ^^^ ofBits bs) := by
  induction bs generalizing c with
  | nil => simp [run, steps, ofBits]
  | cons b bs ih =>
      rw [List.length_cons] at hlen
      have hmsb : (ofBits bs : BitVec w).msb = false := by
        rw [BitVec.msb_eq_getLsbD_last, getLsbD_ofBits bs _ (by omega)]
        rw [List.getElem?_eq_none (by omega)]
        rfl
      have hstep : step poly (c ^^^ ofBits (b :: bs)) = step poly (c ^^^ low b) ^^^ ofBits bs := by
        rw [ofBits, ← BitVec.xor_assoc, step_xor, step_shiftLeft poly hmsb]
      show run poly (step poly (c ^^^ low b)) bs = _
      rw [ih _ (by omega), List.length_cons, steps, hstep]

theorem ofBits_ne_zero {bs : List Bool} (hlen : bs.length ≤ w) (hbit : true ∈ bs) : (ofBits bs : BitVec w) ≠ 0#w := by
  intro hzero
  obtain ⟨i, hi, hget⟩ := List.getElem_of_mem hbit
  have hset := getLsbD_ofBits (w := w) bs i (by omega)
  rw [hzero, BitVec.getLsbD_zero, List.getElem?_eq_getElem hi, hget] at hset
  cases hset

/-- The two messages agree outside a window of at most `n` bits. -/
def Burst (n : Nat) (bs bs' : List Bool) : Prop :=
  ∃ before window window' after, bs = before ++ (window ++ after) ∧ bs' = before ++ (window' ++ after) ∧
    window.length = window'.length ∧ window.length ≤ n

/-- Messages of one length that differ nowhere `n` bits apart differ in a window of `n` bits. -/
theorem burst_of_close {n : Nat} {bs bs' : List Bool} (hlen : bs.length = bs'.length)
    (hclose : ∀ i j, bs[i]? ≠ bs'[i]? → bs[j]? ≠ bs'[j]? → j < i + n) : Burst n bs bs' := by
  induction bs generalizing bs' with
  | nil =>
      rw [List.length_eq_zero_iff.mp hlen.symm]
      exact ⟨[], [], [], [], rfl, rfl, rfl, Nat.zero_le n⟩
  | cons b bs ih =>
      cases bs' with
      | nil => cases hlen
      | cons b' bs' =>
          by_cases hb : b = b'
          · subst hb
            have hrest : ∀ i j, bs[i]? ≠ bs'[i]? → bs[j]? ≠ bs'[j]? → j < i + n := by
              intro i j hi hj
              have hlt := hclose (i + 1) (j + 1) (by simpa using hi) (by simpa using hj)
              omega
            obtain ⟨before, window, window', after, rfl, rfl, hwidth, hshort⟩ := ih (Nat.succ.inj hlen) hrest
            exact ⟨b :: before, window, window', after, rfl, rfl, hwidth, hshort⟩
          · -- the first bits differ, so the window begins here
            have hfirst : (b :: bs)[0]? ≠ (b' :: bs')[0]? := by simpa using hb
            have hafter : (b :: bs).drop n = (b' :: bs').drop n := by
              apply List.ext_getElem?
              intro j
              rw [List.getElem?_drop, List.getElem?_drop]
              by_contra hj
              have hlt := hclose 0 (n + j) hfirst hj
              omega
            refine ⟨[], (b :: bs).take n, (b' :: bs').take n, (b :: bs).drop n, ?_, ?_, ?_, ?_⟩
            · rw [List.nil_append, List.take_append_drop]
            · rw [hafter, List.nil_append, List.take_append_drop]
            · rw [List.length_take, List.length_take, hlen]
            · exact List.length_take_le n _

theorem zipWith_xor_self (bs : List Bool) : List.zipWith (· ^^ ·) bs bs = List.replicate bs.length false := by
  induction bs with
  | nil => rfl
  | cons b bs ih =>
      rw [List.zipWith_cons_cons, ih, Bool.xor_self]
      rfl

theorem true_mem_zipWith_xor {bs bs' : List Bool} (hlen : bs.length = bs'.length) (hne : bs ≠ bs') :
    true ∈ List.zipWith (· ^^ ·) bs bs' := by
  induction bs generalizing bs' with
  | nil => exact absurd (List.length_eq_zero_iff.mp hlen.symm).symm hne
  | cons b bs ih =>
      cases bs' with
      | nil => cases hlen
      | cons b' bs' =>
          rw [List.zipWith_cons_cons]
          by_cases hb : b = b'
          · subst hb
            exact List.mem_cons_of_mem _ (ih (Nat.succ.inj hlen) (fun h => hne (by rw [h])))
          · have hxor : (b ^^ b') = true := by cases b <;> cases b' <;> simp_all
            rw [hxor]
            exact List.mem_cons_self ..

/-- **A burst no longer than the register is detected.** -/
theorem run_ne_of_burst (hpoly : poly.msb = true) (c : BitVec w) {bs bs' : List Bool} (h : Burst w bs bs')
    (hne : bs ≠ bs') : run poly c bs ≠ run poly c bs' := by
  obtain ⟨before, window, window', after, rfl, rfl, hlen, hwidth⟩ := h
  have hwindow : window ≠ window' := fun heq => hne (by rw [heq])
  intro heq
  have hlength : (before ++ (window ++ after)).length = (before ++ (window' ++ after)).length := by simp [hlen]
  have hdiff := run_xor poly c c hlength
  rw [heq, BitVec.xor_self, BitVec.xor_self, List.zipWith_append rfl, List.zipWith_append hlen, zipWith_xor_self,
    zipWith_xor_self, run_append, run_append, run_zeros, run_zeros] at hdiff
  have hstart : steps poly before.length (0#w) = 0#w := (steps_eq_zero_iff poly hpoly _).mpr rfl
  have hshort : (List.zipWith (· ^^ ·) window window').length ≤ w := by
    rw [List.length_zipWith]
    omega
  rw [hstart, run_eq_steps poly _ hshort, BitVec.zero_xor] at hdiff
  have hzero := (steps_eq_zero_iff poly hpoly _).mp ((steps_eq_zero_iff poly hpoly _).mp hdiff.symm)
  exact ofBits_ne_zero hshort (true_mem_zipWith_xor hlen hwindow) hzero

end Crc
