import Mathlib.Logic.Function.Iterate

/-!
# Reflected CRCs

A polynomial over the field of two elements of degree below `w` is a word of `w` bits, the
bit `w - 1` being the coefficient of degree 0. A polynomial of degree `w` is given by its other
coefficients.

Results:
1. `step`: multiplication by the variable modulo a polynomial; `iterate_step_xor`: it is
   additive.
2. `iterate_step_eq`: several steps at once, from a table for the lowest bits.
3. `eq_of_twoPow`: additive functions that agree on single bits are equal. `Coprime`,
   `coprime_of_inverse`.
4. `step2`: the same modulo a polynomial of degree `2 * w`. `reduce_run2`: the remainder
   modulo a divisor of it. `run_eq_iff`: when two CRCs agree; `run2_last`: the last word.
-/

namespace Crc

variable {w v : Nat}

/-! ## 1. One bit -/

def select (b : Bool) (p : BitVec w) : BitVec w := if b then p else 0#w

/-- Multiplication by the variable modulo `p`: a CRC takes in a bit. -/
def step (p s : BitVec w) : BitVec w := s >>> 1 ^^^ select (s.getLsbD 0) p

def Additive (f : BitVec w → BitVec v) : Prop := ∀ a b, f (a ^^^ b) = f a ^^^ f b

theorem xor_xor_xor_comm (a b c d : BitVec w) :
    (a ^^^ b) ^^^ (c ^^^ d) = (a ^^^ c) ^^^ (b ^^^ d) := by
  rw [BitVec.xor_assoc, ← BitVec.xor_assoc b, BitVec.xor_comm b, BitVec.xor_assoc c,
    BitVec.xor_assoc a c]

theorem select_xor (a b : Bool) (p : BitVec w) :
    select (a ^^ b) p = select a p ^^^ select b p := by
  cases a <;> cases b <;> simp [select]

theorem select_of_xor (b : Bool) (p q : BitVec w) :
    select b (p ^^^ q) = select b p ^^^ select b q := by
  cases b
  · exact BitVec.xor_zero.symm
  · rfl

theorem step_xor (p : BitVec w) : Additive (step p) := by
  intro a b
  rw [step, BitVec.ushiftRight_xor_distrib, BitVec.getLsbD_xor, select_xor]
  exact xor_xor_xor_comm _ _ _ _

theorem Additive.zero {f : BitVec w → BitVec v} (h : Additive f) : f 0#w = 0#v := by
  have hzero := h 0#w 0#w
  rw [BitVec.xor_self] at hzero
  rw [hzero, BitVec.xor_self]

theorem iterate_step_xor (p : BitVec w) (n : Nat) : Additive (step p)^[n] := by
  intro a b
  induction n generalizing a b with
  | zero => rfl
  | succ n ih => rw [Function.iterate_succ_apply, step_xor, ih]; rfl

theorem Additive.select {f : BitVec w → BitVec v} (h : Additive f) (b : Bool) (p : BitVec w) :
    f (Crc.select b p) = Crc.select b (f p) := by
  cases b
  · exact h.zero
  · rfl

/-! ## 2. Several bits at once -/

/-- A word whose lowest bits are clear is only shifted. -/
theorem iterate_step_of_clear (p : BitVec w) {n : Nat} {s : BitVec w}
    (h : ∀ i < n, s.getLsbD i = false) : (step p)^[n] s = s >>> n := by
  induction n generalizing s with
  | zero => exact (BitVec.ushiftRight_zero s).symm
  | succ n ih =>
    have hstep : step p s = s >>> 1 := by
      rw [step, h 0 (Nat.succ_pos n)]
      exact BitVec.xor_zero
    rw [Function.iterate_succ_apply, hstep, ih fun i hi => ?_, ← BitVec.shiftRight_add,
      Nat.add_comm]
    rw [BitVec.getLsbD_ushiftRight]
    exact h (1 + i) (by omega)

def lowBits (n : Nat) (s : BitVec w) : BitVec w := s &&& BitVec.ofNat w (1 <<< n - 1)

theorem getLsbD_lowBits (n : Nat) (s : BitVec w) (i : Nat) :
    (lowBits n s).getLsbD i = (s.getLsbD i && decide (i < n)) := by
  rw [lowBits, BitVec.getLsbD_and, BitVec.getLsbD_ofNat, Nat.one_shiftLeft,
    Nat.testBit_two_pow_sub_one]
  rcases Nat.lt_or_ge i w with hi | hi
  · simp [hi]
  · simp [BitVec.getLsbD_of_ge s i hi]

/-- Several steps are a shift and an entry of a table for the lowest bits. -/
theorem iterate_step_eq (p : BitVec w) (n : Nat) (s : BitVec w) :
    (step p)^[n] s = s >>> n ^^^ (step p)^[n] (lowBits n s) := by
  have hsplit : s = (s ^^^ lowBits n s) ^^^ lowBits n s := by
    rw [BitVec.xor_assoc, BitVec.xor_self, BitVec.xor_zero]
  have hclear : ∀ i < n, (s ^^^ lowBits n s).getLsbD i = false := by
    intro i hi
    simp [getLsbD_lowBits, hi]
  have hshift : (s ^^^ lowBits n s) >>> n = s >>> n := by
    refine BitVec.eq_of_getLsbD_eq fun i _ => ?_
    simp [BitVec.getLsbD_ushiftRight, getLsbD_lowBits, Nat.not_lt.mpr (Nat.le_add_right n i)]
  calc (step p)^[n] s
      = (step p)^[n] ((s ^^^ lowBits n s) ^^^ lowBits n s) := congrArg _ hsplit
    _ = (step p)^[n] (s ^^^ lowBits n s) ^^^ (step p)^[n] (lowBits n s) :=
        iterate_step_xor p n _ _
    _ = s >>> n ^^^ (step p)^[n] (lowBits n s) := by
        rw [iterate_step_of_clear p hclear, hshift]

/-! ## 3. Single bits -/

/-- Additive functions that agree on the words with a single bit are equal. -/
theorem eq_of_twoPow {f g : BitVec w → BitVec v} (hf : Additive f) (hg : Additive g)
    (h : ∀ i < w, f (BitVec.twoPow w i) = g (BitVec.twoPow w i)) (x : BitVec w) : f x = g x := by
  have hbits : ∀ n ≤ w, ∀ x : BitVec w, (∀ i, n ≤ i → x.getLsbD i = false) → f x = g x := by
    intro n
    induction n with
    | zero =>
      intro _ x hx
      have hzero : x = 0#w := BitVec.eq_of_getLsbD_eq fun i _ => by simp [hx i (Nat.zero_le i)]
      rw [hzero, hf.zero, hg.zero]
    | succ n ih =>
      intro hn x hx
      cases hbit : x.getLsbD n with
      | false =>
        refine ih (Nat.le_of_succ_le hn) x fun i hi => ?_
        rcases Nat.eq_or_lt_of_le hi with rfl | hi
        · exact hbit
        · exact hx i hi
      | true =>
        -- Without the bit `n` the rest has the bits below it only.
        have hrest := ih (Nat.le_of_succ_le hn) (x ^^^ BitVec.twoPow w n) fun i hi => ?_
        · have hsplit : x = (x ^^^ BitVec.twoPow w n) ^^^ BitVec.twoPow w n := by
            rw [BitVec.xor_assoc, BitVec.xor_self, BitVec.xor_zero]
          rw [hsplit, hf, hg, hrest, h n hn]
        · rw [BitVec.getLsbD_xor, BitVec.getLsbD_twoPow]
          rcases Nat.eq_or_lt_of_le hi with rfl | hlt
          · simp [hbit, Nat.lt_of_succ_le hn]
          · simp [hx i hlt, Nat.ne_of_lt hlt]
  exact hbits w (Nat.le_refl w) x fun i hi => BitVec.getLsbD_of_ge x i hi

/-- The additive function with the values `cols` on the words with a single bit. -/
def combine (cols : Nat → BitVec v) : Nat → BitVec w → BitVec v
  | 0, _ => 0#v
  | n + 1, x => combine cols n x ^^^ select (x.getLsbD n) (cols n)

theorem combine_xor (cols : Nat → BitVec v) (n : Nat) :
    Additive (combine cols n : BitVec w → BitVec v) := by
  intro a b
  induction n with
  | zero => exact BitVec.xor_zero.symm
  | succ n ih =>
    rw [combine, ih, BitVec.getLsbD_xor, select_xor]
    exact xor_xor_xor_comm _ _ _ _

/-- Polynomials of degree `w` without a common divisor: no multiple of degree below `2 * w` of
the variable to the power `w` has the same remainder modulo both. -/
def Coprime (p q : BitVec w) : Prop := ∀ x, (step p)^[w] x = (step q)^[w] x → x = 0#w

theorem coprime_of_inverse {p q : BitVec w} (cols : Nat → BitVec w)
    (h : ∀ i < w, combine cols w ((step p)^[w] (BitVec.twoPow w i) ^^^
      (step q)^[w] (BitVec.twoPow w i)) = BitVec.twoPow w i) : Coprime p q := by
  intro x hx
  have hboth : Additive fun x => combine cols w ((step p)^[w] x ^^^ (step q)^[w] x) := by
    intro a b
    show combine cols w _ = _
    rw [iterate_step_xor p, iterate_step_xor q, xor_xor_xor_comm]
    exact combine_xor cols w _ _
  have hid : combine cols w ((step p)^[w] x ^^^ (step q)^[w] x) = x :=
    eq_of_twoPow (g := id) hboth (fun _ _ => rfl) h x
  rw [← hid, hx, BitVec.xor_self]
  exact (combine_xor cols w).zero

/-! ## 4. Twice the degree -/

/-- Multiplication by the variable modulo `m`, of degree `2 * w`. The first word has the lower
degrees. -/
def step2 (m s : BitVec w × BitVec w) : BitVec w × BitVec w :=
  (s.1 >>> 1 ^^^ select (s.2.getLsbD 0) m.1,
    s.2 >>> 1 ^^^ select (s.1.getLsbD 0) (BitVec.twoPow w (w - 1)) ^^^
      select (s.2.getLsbD 0) m.2)

theorem step2_xor (m s t : BitVec w × BitVec w) :
    step2 m (s.1 ^^^ t.1, s.2 ^^^ t.2) =
      ((step2 m s).1 ^^^ (step2 m t).1, (step2 m s).2 ^^^ (step2 m t).2) := by
  simp only [step2, BitVec.ushiftRight_xor_distrib, BitVec.getLsbD_xor, select_xor, Prod.mk.injEq]
  constructor
  · ac_rfl
  · ac_rfl

theorem iterate_step2_xor (m : BitVec w × BitVec w) (n : Nat) (s t : BitVec w × BitVec w) :
    (step2 m)^[n] (s.1 ^^^ t.1, s.2 ^^^ t.2) =
      (((step2 m)^[n] s).1 ^^^ ((step2 m)^[n] t).1,
        ((step2 m)^[n] s).2 ^^^ ((step2 m)^[n] t).2) := by
  induction n generalizing s t with
  | zero => rfl
  | succ n ih =>
    rw [Function.iterate_succ_apply, Function.iterate_succ_apply, Function.iterate_succ_apply,
      step2_xor]
    exact ih _ _

/-- The remainder modulo `p` of a polynomial of twice the width, whose second half has the terms
from `x ^ w` on. -/
def reduce (p : BitVec w) (s : BitVec w × BitVec w) : BitVec w := s.1 ^^^ (step p)^[w] s.2

/-- `m` of degree `2 * w` is a multiple of `p`. -/
def Divides (p : BitVec w) (m : BitVec w × BitVec w) : Prop :=
  m.1 ^^^ (step p)^[w] m.2 = (step p)^[w] p

/-- The remainder of the variable to the power `w`. -/
theorem iterate_step_one (p : BitVec w) : (step p)^[w] (BitVec.twoPow w (w - 1)) = p := by
  cases w with
  | zero => exact BitVec.eq_of_getLsbD_eq fun i hi => absurd hi (Nat.not_lt_zero i)
  | succ n =>
    have hclear : ∀ i < n, (BitVec.twoPow (n + 1) n).getLsbD i = false := by
      intro i hi
      rw [BitVec.getLsbD_twoPow]
      simp [Nat.ne_of_gt hi]
    rw [Nat.add_sub_cancel, Function.iterate_succ_apply', iterate_step_of_clear p hclear]
    have hbit : (BitVec.twoPow (n + 1) n >>> n).getLsbD 0 = true := by
      rw [BitVec.getLsbD_ushiftRight, BitVec.getLsbD_twoPow]
      simp
    have hnone : BitVec.twoPow (n + 1) n >>> n >>> 1 = 0#(n + 1) := by
      refine BitVec.eq_of_getLsbD_eq fun i _ => ?_
      simp only [BitVec.getLsbD_ushiftRight, BitVec.getLsbD_twoPow, BitVec.getLsbD_zero]
      simp
    rw [step, hbit, hnone]
    exact BitVec.zero_xor

theorem reduce_step2 {p : BitVec w} {m : BitVec w × BitVec w} (h : Divides p m)
    (s : BitVec w × BitVec w) : reduce p (step2 m s) = step p (reduce p s) := by
  have hadd := iterate_step_xor p w
  have hlow : (step p)^[w] (step p s.2) =
      (step p)^[w] (s.2 >>> 1) ^^^ select (s.2.getLsbD 0) (m.1 ^^^ (step p)^[w] m.2) := by
    rw [step, hadd, hadd.select, h]
  have hright : step p (reduce p s) = step p s.1 ^^^ (step p)^[w] (step p s.2) := by
    rw [reduce, step_xor, ← Function.iterate_succ_apply' (step p), Function.iterate_succ_apply]
  have hleft : reduce p (step2 m s) = (s.1 >>> 1 ^^^ select (s.2.getLsbD 0) m.1) ^^^
      ((step p)^[w] (s.2 >>> 1) ^^^ select (s.1.getLsbD 0) p ^^^
        select (s.2.getLsbD 0) ((step p)^[w] m.2)) := by
    rw [reduce, step2, hadd, hadd, hadd.select, hadd.select, iterate_step_one]
  rw [hright, hleft, hlow, step, select_of_xor]
  ac_rfl

theorem reduce_iterate {p : BitVec w} {m : BitVec w × BitVec w} (h : Divides p m) (n : Nat)
    (s : BitVec w × BitVec w) : reduce p ((step2 m)^[n] s) = (step p)^[n] (reduce p s) := by
  induction n generalizing s with
  | zero => rfl
  | succ n ih => rw [Function.iterate_succ_apply, Function.iterate_succ_apply, ih, reduce_step2 h]

/-- A CRC takes in words, each with `n` steps. -/
def run (p : BitVec w) (n : Nat) (s : BitVec w) (ds : List (BitVec w)) : BitVec w :=
  ds.foldl (fun s d => (step p)^[n] (s ^^^ d)) s

def run2 (m : BitVec w × BitVec w) (n : Nat) (s : BitVec w × BitVec w) (ds : List (BitVec w)) :
    BitVec w × BitVec w :=
  ds.foldl (fun s d => (step2 m)^[n] (s.1 ^^^ d, s.2)) s

theorem reduce_run2 {p : BitVec w} {m : BitVec w × BitVec w} (h : Divides p m) (n : Nat)
    (s : BitVec w × BitVec w) (ds : List (BitVec w)) :
    reduce p (run2 m n s ds) = run p n (reduce p s) ds := by
  induction ds generalizing s with
  | nil => rfl
  | cons d ds ih =>
    have hword : reduce p (s.1 ^^^ d, s.2) = reduce p s ^^^ d := by
      simp only [reduce]
      ac_rfl
    show reduce p (run2 m n ((step2 m)^[n] (s.1 ^^^ d, s.2)) ds) = _
    rw [ih, reduce_iterate h, hword]
    rfl

/-- Two CRCs with the same start agree exactly if the remainder modulo a common multiple has a
degree below `w`. -/
theorem run_eq_iff {p q : BitVec w} {m : BitVec w × BitVec w} (hp : Divides p m)
    (hq : Divides q m) (hpq : Coprime p q) (n : Nat) (s : BitVec w) (ds : List (BitVec w)) :
    run p n s ds = run q n s ds ↔ (run2 m n (s, 0#w) ds).2 = 0#w := by
  have hstart (r : BitVec w) : reduce r (s, 0#w) = s := by
    rw [reduce, (iterate_step_xor r w).zero, BitVec.xor_zero]
  have hrun {r : BitVec w} (hr : Divides r m) : run r n s ds =
      (run2 m n (s, 0#w) ds).1 ^^^ (step r)^[w] (run2 m n (s, 0#w) ds).2 := by
    rw [← hstart r, ← reduce_run2 hr, hstart r]
    rfl
  rw [hrun hp, hrun hq, BitVec.xor_right_inj]
  refine ⟨hpq _, fun hzero => ?_⟩
  rw [hzero, (iterate_step_xor p w).zero, (iterate_step_xor q w).zero]

/-- Two inputs that differ in the last word only leave remainders that differ in what that
difference leaves. -/
theorem run2_last (m : BitVec w × BitVec w) (n : Nat) (s : BitVec w × BitVec w)
    (ds : List (BitVec w)) (d d' : BitVec w) :
    (run2 m n s (ds ++ [d])).2 ^^^ (run2 m n s (ds ++ [d'])).2 =
      ((step2 m)^[n] (d ^^^ d', 0#w)).2 := by
  obtain ⟨r, hr⟩ : ∃ r, run2 m n s ds = r := ⟨_, rfl⟩
  have hlast (d : BitVec w) : run2 m n s (ds ++ [d]) = (step2 m)^[n] (r.1 ^^^ d, r.2) := by
    rw [← hr, run2, List.foldl_append]
    rfl
  have hsum : (d ^^^ d', 0#w) = ((r.1 ^^^ d) ^^^ (r.1 ^^^ d'), r.2 ^^^ r.2) := by
    rw [BitVec.xor_self, xor_xor_xor_comm, BitVec.xor_self, BitVec.zero_xor]
  rw [hlast, hlast, hsum]
  exact (congrArg Prod.snd (iterate_step2_xor m n (r.1 ^^^ d, r.2) (r.1 ^^^ d', r.2))).symm

end Crc
