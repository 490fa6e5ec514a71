import Picore.Lib.Crc

/-!
# CRCs over bits

A CRC that starts with zero leaves the remainder of its bits. What is added to the bits of a message
adds its own remainder to that of the message, so that it goes unnoticed only when that is zero.

Results:
1. `feed`: the bits go in one by one; `feed_xor`: what is added to them. `feed_eq`: as many bits as
   the word has places go in at once.
2. `feed_burst_ne_zero`: bits within as many places leave a remainder.
3. `feed_odd_ne_zero`: so does an odd number of bits, when the polynomial has an even number of
   terms.
-/

namespace Crc

variable {w : Nat}

/-! ## 1. Bits -/

def bit (w : Nat) (b : Bool) : BitVec w := select b (BitVec.twoPow w 0)

/-- A CRC takes in bits, one after the other. -/
def feed (p s : BitVec w) (bits : List Bool) : BitVec w :=
  bits.foldl (fun s b => step p (s ^^^ bit w b)) s

/-- The word with the bits, the first one at the low end. -/
def ofBits (w : Nat) : List Bool → BitVec w
  | [] => 0#w
  | b :: bits => bit w b ^^^ ofBits w bits <<< 1

theorem feed_append (p s : BitVec w) (xs ys : List Bool) :
    feed p s (xs ++ ys) = feed p (feed p s xs) ys := List.foldl_append

theorem bit_xor (w : Nat) (a b : Bool) : bit w (a ^^ b) = bit w a ^^^ bit w b := select_xor a b _

/-- The register is linear: to feed the sum of two sequences of one length to the sum of two states
gives the sum of the results. -/
theorem feed_xor (p s t : BitVec w) {xs ys : List Bool} (h : xs.length = ys.length) :
    feed p (s ^^^ t) (List.zipWith (· ^^ ·) xs ys) = feed p s xs ^^^ feed p t ys := by
  induction xs generalizing s t ys with
  | nil =>
    cases ys with
    | nil => rfl
    | cons y ys => cases h
  | cons x xs ih =>
    cases ys with
    | nil => cases h
    | cons y ys =>
      have hstep : step p (s ^^^ t ^^^ bit w (x ^^ y)) =
          step p (s ^^^ bit w x) ^^^ step p (t ^^^ bit w y) := by
        rw [bit_xor, xor_xor_xor_comm, step_xor]
      show feed p (step p (s ^^^ t ^^^ bit w (x ^^ y))) (List.zipWith (· ^^ ·) xs ys) = _
      rw [hstep]
      exact ih _ _ (Nat.succ.inj h)

theorem feed_replicate_false (p s : BitVec w) (n : Nat) :
    feed p s (List.replicate n false) = (step p)^[n] s := by
  induction n generalizing s with
  | zero => rfl
  | succ n ih =>
    have hstep : s ^^^ bit w false = s := BitVec.xor_zero
    rw [List.replicate_succ, Function.iterate_succ_apply, ← ih]
    show feed p (step p (s ^^^ bit w false)) _ = _
    rw [hstep]

theorem getLsbD_select (b : Bool) (p : BitVec w) (i : Nat) :
    (select b p).getLsbD i = (b && p.getLsbD i) := by
  cases b <;> simp [select]

theorem getLsbD_bit (w : Nat) (b : Bool) (i : Nat) :
    (bit w b).getLsbD i = (b && decide (i = 0) && decide (i < w)) := by
  cases b
  · simp [bit, select]
  · simp [bit, select, BitVec.getLsbD_twoPow]
    grind

theorem getLsbD_ofBits (w : Nat) (bits : List Bool) {i : Nat} (hi : i < w) :
    (ofBits w bits).getLsbD i = bits.getD i false := by
  induction bits generalizing i with
  | nil => simp [ofBits]
  | cons b bits ih =>
    cases i with
    | zero =>
      rw [ofBits, BitVec.getLsbD_xor, getLsbD_bit, BitVec.getLsbD_shiftLeft]
      simp [hi]
    | succ i =>
      rw [ofBits, BitVec.getLsbD_xor, getLsbD_bit, BitVec.getLsbD_shiftLeft, Nat.add_sub_cancel,
        ih (Nat.lt_of_succ_lt hi)]
      simp [hi]

/-- A step undoes a shift that has lost no bit. -/
theorem step_shiftLeft (p : BitVec w) {s : BitVec w} (h : s.getLsbD (w - 1) = false) :
    step p (s <<< 1) = s := by
  refine BitVec.eq_of_getLsbD_eq fun i hi => ?_
  have hlow : (s <<< 1).getLsbD 0 = false := by simp
  rw [step, hlow]
  simp only [select, Bool.false_eq_true, if_false, BitVec.xor_zero, BitVec.getLsbD_ushiftRight,
    BitVec.getLsbD_shiftLeft]
  rcases Nat.lt_or_ge (1 + i) w with hlt | hge
  · simp [hlt]
  · obtain rfl : i = w - 1 := by omega
    simp [h]

/-- No more bits than the word has places can be taken in at once. -/
theorem feed_eq (p s : BitVec w) {bits : List Bool} (h : bits.length ≤ w) :
    feed p s bits = (step p)^[bits.length] (s ^^^ ofBits w bits) := by
  induction bits generalizing s with
  | nil => exact BitVec.xor_zero.symm
  | cons b bits ih =>
    have htop : (ofBits w bits).getLsbD (w - 1) = false := by
      rw [List.length_cons] at h
      rw [getLsbD_ofBits w bits (by omega), List.getD_eq_getElem?_getD,
        List.getElem?_eq_none (by omega)]
      rfl
    have hstep : step p (s ^^^ ofBits w (b :: bits)) =
        step p (s ^^^ bit w b) ^^^ ofBits w bits := by
      rw [ofBits, ← BitVec.xor_assoc, step_xor, step_shiftLeft p htop]
    rw [List.length_cons, Function.iterate_succ_apply, hstep]
    exact ih _ (Nat.le_of_succ_le h)

theorem ofBits_range (s : BitVec w) : ofBits w ((List.range w).map s.getLsbD) = s := by
  refine BitVec.eq_of_getLsbD_eq fun i hi => ?_
  rw [getLsbD_ofBits w _ hi]
  simp [hi]

/-! ## 2. Bursts -/

/-- All set bits are within `n` neighbouring places, as an error burst on a wire leaves them. -/
def Burst (n : Nat) (bits : List Bool) : Prop :=
  ∃ a, ∀ i : Nat, bits[i]? = some true → a ≤ i ∧ i < a + n

/-- With a polynomial that has the coefficient of degree 0, only zero goes to zero. -/
theorem eq_zero_of_step {p s : BitVec w} (hp : p.getLsbD (w - 1) = true) (h : step p s = 0#w) :
    s = 0#w := by
  have hbits (i : Nat) : (s.getLsbD (1 + i) ^^ (s.getLsbD 0 && p.getLsbD i)) = false := by
    have hi := congrArg (·.getLsbD i) h
    simpa only [step, BitVec.getLsbD_xor, BitVec.getLsbD_ushiftRight, getLsbD_select,
      BitVec.getLsbD_zero] using hi
  have hlow : s.getLsbD 0 = false := by
    have htop := hbits (w - 1)
    rw [hp, BitVec.getLsbD_of_ge s _ (by omega)] at htop
    simpa using htop
  refine BitVec.eq_of_getLsbD_eq fun i _ => ?_
  cases i with
  | zero => simp [hlow]
  | succ i =>
    have hi := hbits i
    rw [hlow, Nat.add_comm] at hi
    simpa using hi

theorem iterate_step_ne_zero {p s : BitVec w} (hp : p.getLsbD (w - 1) = true) (hs : s ≠ 0#w)
    (n : Nat) : (step p)^[n] s ≠ 0#w := by
  induction n generalizing s with
  | zero => exact hs
  | succ n ih => exact ih fun h0 => hs (eq_zero_of_step hp h0)

theorem eq_replicate_of_clear {bits : List Bool} (h : ∀ i : Nat, bits[i]? ≠ some true) :
    bits = List.replicate bits.length false := by
  refine List.eq_replicate_iff.2 ⟨rfl, fun b hb => ?_⟩
  obtain ⟨i, hi, rfl⟩ := List.getElem_of_mem hb
  have := h i
  simpa [hi] using this

/-- Bits that are set within as many places as the word has leave a remainder. -/
theorem feed_burst_ne_zero {p : BitVec w} (hp : p.getLsbD (w - 1) = true) {bits : List Bool}
    (hburst : Burst w bits) (hset : true ∈ bits) : feed p 0#w bits ≠ 0#w := by
  obtain ⟨a, ha⟩ := hburst
  -- the bits before the burst and behind it are clear
  have hbefore : bits.take a = List.replicate (bits.take a).length false :=
    eq_replicate_of_clear fun i hi => by
      rw [List.getElem?_take] at hi
      split at hi
      · next hlt => exact absurd (ha i hi).1 (Nat.not_le.2 hlt)
      · cases hi
  have hbehind : bits.drop (a + w) = List.replicate (bits.drop (a + w)).length false :=
    eq_replicate_of_clear fun i hi => by
      rw [List.getElem?_drop] at hi
      exact absurd (ha _ hi).2 (Nat.not_lt.2 (Nat.le_add_right _ _))
  have hsplit : bits = bits.take a ++ ((bits.drop a).take w ++ bits.drop (a + w)) := by
    rw [← List.drop_drop, List.take_append_drop, List.take_append_drop]
  have hlen : ((bits.drop a).take w).length ≤ w := List.length_take_le _ _
  have hword : ofBits w ((bits.drop a).take w) ≠ 0#w := by
    intro h0
    obtain ⟨i, hi, hbit⟩ := List.getElem_of_mem hset
    have hrange := ha i (by rw [List.getElem?_eq_getElem hi, hbit])
    have hval := getLsbD_ofBits w ((bits.drop a).take w) (i := i - a) (by omega)
    rw [h0, List.getD_eq_getElem?_getD, List.getElem?_take_of_lt (by omega), List.getElem?_drop,
      Nat.add_sub_cancel' hrange.1, List.getElem?_eq_getElem hi, hbit] at hval
    simp at hval
  rw [hsplit, feed_append, hbefore, feed_replicate_false, (iterate_step_xor p _).zero, feed_append,
    feed_eq p _ hlen, hbehind, feed_replicate_false, BitVec.zero_xor]
  exact iterate_step_ne_zero hp (iterate_step_ne_zero hp hword _) _

/-! ## 3. Parity -/

/-- The parity of the lowest `n` bits, by which that of a whole word is found. -/
def parityBelow (s : BitVec w) : Nat → Bool
  | 0 => false
  | n + 1 => parityBelow s n ^^ s.getLsbD n

def parity (s : BitVec w) : Bool := parityBelow s w

theorem parity_xor (a b : BitVec w) : parity (a ^^^ b) = (parity a ^^ parity b) := by
  have h (n : Nat) : parityBelow (a ^^^ b) n = (parityBelow a n ^^ parityBelow b n) := by
    induction n with
    | zero => rfl
    | succ n ih =>
      rw [parityBelow, ih, BitVec.getLsbD_xor, parityBelow, parityBelow, Bool.xor_assoc,
        Bool.xor_left_comm (parityBelow b n), ← Bool.xor_assoc]
  exact h w

theorem parity_zero : parity (0#w) = false := by
  have h := parity_xor (0#w) (0#w)
  rw [BitVec.xor_self, Bool.xor_self] at h
  exact h

theorem parity_ushiftRight (s : BitVec w) : parity (s >>> 1) = (parity s ^^ s.getLsbD 0) := by
  have h (n : Nat) : parityBelow s (n + 1) = (parityBelow (s >>> 1) n ^^ s.getLsbD 0) := by
    induction n with
    | zero => simp [parityBelow]
    | succ n ih =>
      rw [parityBelow, ih, parityBelow, BitVec.getLsbD_ushiftRight, Nat.add_comm 1 n,
        Bool.xor_right_comm]
  have hw := h w
  rw [parityBelow, BitVec.getLsbD_of_ge s w (Nat.le_refl w), Bool.xor_false] at hw
  rw [parity, parity, hw, Bool.xor_assoc, Bool.xor_self, Bool.xor_false]

theorem parity_select (b : Bool) (p : BitVec w) : parity (select b p) = (b && parity p) := by
  cases b
  · exact parity_zero
  · rfl

/-- A polynomial with an odd number of terms besides the leading one keeps the parity. -/
theorem parity_step {p : BitVec w} (hp : parity p = true) (s : BitVec w) :
    parity (step p s) = parity s := by
  rw [step, parity_xor, parity_ushiftRight, parity_select, hp]
  simp

theorem parity_bit (hw : 0 < w) (b : Bool) : parity (bit w b) = b := by
  have hlow : (BitVec.twoPow w 0).getLsbD 0 = true := by simp [hw]
  have hshift : BitVec.twoPow w 0 >>> 1 = 0#w := by
    refine BitVec.eq_of_getLsbD_eq fun i _ => ?_
    rw [BitVec.getLsbD_ushiftRight, BitVec.getLsbD_twoPow, BitVec.getLsbD_zero]
    simp only [Bool.and_eq_false_imp, decide_eq_true_eq, decide_eq_false_iff_not]
    omega
  have hone : parity (BitVec.twoPow w 0) = true := by
    have h := parity_ushiftRight (BitVec.twoPow w 0)
    rw [hshift, parity_zero, hlow] at h
    simpa using h.symm
  rw [bit, parity_select, hone, Bool.and_true]

theorem parity_feed {p : BitVec w} (hp : parity p = true) (s : BitVec w) (bits : List Bool) :
    parity (feed p s bits) = (parity s ^^ decide (bits.count true % 2 = 1)) := by
  have hw : 0 < w := by
    refine Nat.pos_of_ne_zero fun h0 => ?_
    subst h0
    exact absurd hp (by simp [parity, parityBelow])
  induction bits generalizing s with
  | nil => simp [feed]
  | cons b bits ih =>
    have hcons : feed p s (b :: bits) = feed p (step p (s ^^^ bit w b)) bits := rfl
    rw [hcons, ih, parity_step hp, parity_xor, parity_bit hw, Bool.xor_assoc]
    congr 1
    cases b with
    | false => simp
    | true =>
      rw [List.count_cons_self]
      grind

theorem feed_odd_ne_zero {p : BitVec w} (hp : parity p = true) {bits : List Bool}
    (hodd : bits.count true % 2 = 1) : feed p 0#w bits ≠ 0#w := by
  intro h0
  have h := parity_feed hp 0#w bits
  rw [h0, parity_zero, hodd] at h
  simp at h

end Crc
