import Mathlib.Logic.Function.Basic
import Mathlib.Tactic.Common

/-!
# The bits of bytes

A byte is determined by its eight bits. An array of bits is kept in bytes, bit `k` in
byte `k / 8` at place `k % 8`.

Results:
1. `ext`: bytes with the same bits are equal. `bitAt_or`, `bitAt_lowBits`: the bits of
   what is set and of what is masked.
2. `updates_apply`, `updates_other`: an array with 16-bit addresses after consecutive
   writes.
3. `mask_eq_iff`: masks of 32 bits, bit by bit; `or_eq_right_iff`, `diff_eq_iff`: when a mask
   that is changed bit by bit is the one it should be.
4. `pack_eq`, `bitAt_pack`: a list of bits in bytes.
-/

namespace Bits

/-! ## 1. Bytes -/

/-- Bit `i` of a byte, from the lowest one on. -/
def bitAt (b : UInt8) (i : Nat) : Bool := (b >>> UInt8.ofNat i) &&& 1 != 0

/-- The low `n` bits of a byte, `n` not being zero. -/
def lowBits (n : Nat) (b : UInt8) : UInt8 := b &&& (0xff >>> UInt8.ofNat (8 - n))

theorem bitAt_eq (b : UInt8) {i : Nat} (hi : i < 8) : bitAt b i = b.toNat.testBit i := by
  have hnat : ((b >>> UInt8.ofNat i) &&& 1).toNat = b.toNat / 2 ^ i % 2 := by
    rw [UInt8.toNat_and, UInt8.toNat_shiftRight, UInt8.toNat_ofNat',
      show (1 : UInt8).toNat = 1 from rfl, Nat.and_one_is_mod, Nat.shiftRight_eq_div_pow]
    congr 3
    omega
  rw [Nat.testBit_eq_decide_div_mod_eq, bitAt, Bool.eq_iff_iff, bne_iff_ne, decide_eq_true_iff,
    Ne, ← UInt8.toNat_inj, hnat]
  show ¬ _ = 0 ↔ _
  omega

theorem ext {b c : UInt8} (h : ∀ i < 8, bitAt b i = bitAt c i) : b = c := by
  refine UInt8.toNat_inj.mp (Nat.eq_of_testBit_eq fun i => ?_)
  rcases Nat.lt_or_ge i 8 with hi | hi
  · rw [← bitAt_eq b hi, ← bitAt_eq c hi, h i hi]
  · have hlt (d : UInt8) : d.toNat.testBit i = false := by
      refine Nat.testBit_lt_two_pow (Nat.lt_of_lt_of_le d.toNat_lt ?_)
      exact Nat.pow_le_pow_right (by decide) hi
    rw [hlt, hlt]

theorem bitAt_zero {i : Nat} (hi : i < 8) : bitAt 0 i = false := by
  rw [bitAt_eq 0 hi]
  exact Nat.zero_testBit i

/-- The bits of a byte in which bit `j` has been set. -/
theorem bitAt_or (b : UInt8) {i j : Nat} (hi : i < 8) (hj : j < 8) :
    bitAt (b ||| (1 <<< UInt8.ofNat j)) i = (bitAt b i || decide (i = j)) := by
  have hone : ((1 : UInt8) <<< UInt8.ofNat j).toNat = 2 ^ j := by
    have h1 : 2 ^ j < 2 ^ 8 := Nat.pow_lt_pow_right (by decide) hj
    rw [UInt8.toNat_shiftLeft, UInt8.toNat_ofNat', show j % 2 ^ 8 % 8 = j by omega,
      show (1 : UInt8).toNat = 1 from rfl, Nat.one_shiftLeft, Nat.mod_eq_of_lt h1]
  rw [bitAt_eq _ hi, bitAt_eq b hi, UInt8.toNat_or, hone, Nat.testBit_or, Nat.testBit_two_pow]
  exact congrArg _ (decide_eq_decide.mpr eq_comm)

theorem bitAt_xor (b c : UInt8) {i : Nat} (hi : i < 8) :
    bitAt (b ^^^ c) i = (bitAt b i ^^ bitAt c i) := by
  rw [bitAt_eq _ hi, bitAt_eq b hi, bitAt_eq c hi, UInt8.toNat_xor, Nat.testBit_xor]

theorem bitAt_lowBits (b : UInt8) {n i : Nat} (hn : 0 < n) (hi : i < 8) :
    bitAt (lowBits n b) i = (bitAt b i && decide (i < n)) := by
  have hmask : ((0xff : UInt8) >>> UInt8.ofNat (8 - n)).toNat = (2 ^ 8 - 1) >>> (8 - n) := by
    rw [UInt8.toNat_shiftRight, UInt8.toNat_ofNat']
    congr 1
    omega
  rw [lowBits, bitAt_eq _ hi, bitAt_eq b hi, UInt8.toNat_and, hmask, Nat.testBit_and,
    Nat.testBit_shiftRight, Nat.testBit_two_pow_sub_one]
  refine congrArg _ (decide_eq_decide.mpr ?_)
  omega

/-! ## 2. Arrays with 16-bit addresses -/

variable {α : Type}

/-- The array after the values `v off`, `v (off + 1)`, … have been written to `n`
addresses, which may wrap around. -/
def updates (address : UInt16) (v : Nat → α) : Nat → Nat → (UInt16 → α) → UInt16 → α
  | 0, _, f => f
  | n + 1, off, f =>
    updates address v n (off + 1) (Function.update f (address + UInt16.ofNat off) (v off))

/-- The addresses that are not among the `n` written ones keep their values. -/
theorem updates_other {address a : UInt16} {v : Nat → α} {n off : Nat} {f : UInt16 → α}
    (h : ∀ k, off ≤ k → k < off + n → a ≠ address + UInt16.ofNat k) :
    updates address v n off f a = f a := by
  induction n generalizing off f with
  | zero => rfl
  | succ n ih =>
    rw [updates, ih fun k h1 h2 => h k (by omega) (by omega)]
    exact Function.update_of_ne (h off (Nat.le_refl off) (by omega)) _ _

/-- The addresses that are written differ, as long as there are no more of them than
addresses. -/
theorem address_ne {address : UInt16} {j k : Nat} (hj : j < 65536) (hk : k < 65536)
    (hne : j ≠ k) : address + UInt16.ofNat j ≠ address + UInt16.ofNat k := by
  intro h
  have h1 := UInt16.toNat_inj.mpr ((UInt16.add_right_inj address).mp h)
  rw [UInt16.toNat_ofNat', UInt16.toNat_ofNat'] at h1
  omega

/-- The addresses that are written have their new values, as long as the offsets are below 2^16 and
so no address is written twice. -/
theorem updates_apply {address : UInt16} {v : Nat → α} {n off k : Nat} {f : UInt16 → α}
    (hle : off + n ≤ 65536) (h1 : off ≤ k) (h2 : k < off + n) :
    updates address v n off f (address + UInt16.ofNat k) = v k := by
  induction n generalizing off f with
  | zero => exact absurd h2 (Nat.not_lt_of_le h1)
  | succ n ih =>
    rw [updates]
    rcases Nat.eq_or_lt_of_le h1 with rfl | h1
    · rw [updates_other fun j h3 h4 => ?_, Function.update_self]
      exact address_ne (by omega) (by omega) (by omega)
    · exact ih (by omega) h1 (by omega)

/-! ## 3. Masks -/

variable {x y z : UInt32}

theorem mask_eq_iff : x = y ↔ ∀ (i : Nat) (hi : i < 32), x.toBitVec[i] = y.toBitVec[i] :=
  ⟨fun h _ _ => by rw [h], fun h => UInt32.toBitVec_inj.mp (BitVec.eq_of_getElem_eq h)⟩

/-- Setting the bits of `y` leaves just these when no others are set. -/
theorem or_eq_right_iff : x ||| y = y ↔ x &&& ~~~y = 0 := by
  rw [mask_eq_iff, mask_eq_iff]
  refine forall₂_congr fun i hi => ?_
  simp only [UInt32.toBitVec_or, UInt32.toBitVec_and, UInt32.toBitVec_not, BitVec.getElem_or,
    BitVec.getElem_and, BitVec.getElem_not]
  cases x.toBitVec[i] <;> cases y.toBitVec[i] <;> simp

/-- Clearing the bits of `y` clears those in `z` only when no others of them are set. -/
theorem diff_eq_iff : x &&& ~~~y = x &&& ~~~(y &&& z) ↔ x &&& y &&& ~~~z = 0 := by
  rw [mask_eq_iff, mask_eq_iff]
  refine forall₂_congr fun i hi => ?_
  simp only [UInt32.toBitVec_and, UInt32.toBitVec_not, BitVec.getElem_and, BitVec.getElem_not]
  cases x.toBitVec[i] <;> cases y.toBitVec[i] <;> cases z.toBitVec[i] <;> simp

theorem diff_or : x &&& ~~~(y ||| z) = x &&& ~~~y &&& ~~~z := by
  rw [mask_eq_iff]
  intro i hi
  simp only [UInt32.toBitVec_or, UInt32.toBitVec_and, UInt32.toBitVec_not, BitVec.getElem_or,
    BitVec.getElem_and, BitVec.getElem_not]
  cases x.toBitVec[i] <;> cases y.toBitVec[i] <;> simp

theorem or_outside (hy : y &&& ~~~z = 0) : (y ||| (x &&& z)) &&& ~~~z = 0 := by
  rw [mask_eq_iff] at hy ⊢
  intro i hi
  have hyi := hy i hi
  simp only [UInt32.toBitVec_or, UInt32.toBitVec_and, UInt32.toBitVec_not, BitVec.getElem_or,
    BitVec.getElem_and, BitVec.getElem_not] at hyi ⊢
  revert hyi
  cases x.toBitVec[i] <;> cases y.toBitVec[i] <;> cases z.toBitVec[i] <;> simp

/-- What is cleared in `z` only leaves the bits outside of it. -/
theorem outside_diff (hy : y &&& ~~~z = 0) {w : UInt32} (hw : w &&& z = 0) :
    x &&& w &&& ~~~(x &&& ~~~y) = 0 := by
  rw [mask_eq_iff] at hy hw ⊢
  intro i hi
  have hyi := hy i hi
  have hwi := hw i hi
  simp only [UInt32.toBitVec_and, UInt32.toBitVec_not, BitVec.getElem_and,
    BitVec.getElem_not] at hyi hwi ⊢
  revert hyi hwi
  cases x.toBitVec[i] <;> cases y.toBitVec[i] <;> cases z.toBitVec[i] <;> cases w.toBitVec[i] <;>
    simp

/-! ## 4. Packed bits -/

/-- The byte with the bits `c 0`, …, `c 7`. -/
def ofBits (c : Nat → Bool) : UInt8 :=
  (List.range 8).foldl (fun b i => if c i then b ||| (1 <<< UInt8.ofNat i) else b) 0

/-- Bits in as few bytes as they need. What is left of the last one is zero. -/
def pack (bits : List Bool) : List UInt8 :=
  (List.range ((bits.length + 7) / 8)).map fun j => ofBits fun i => bits.getD (8 * j + i) false

theorem bitAt_foldl (c : Nat → Bool) (b : UInt8) {n i : Nat} (hn : n ≤ 8) (hi : i < 8) :
    bitAt ((List.range n).foldl
        (fun b i => if c i then b ||| (1 <<< UInt8.ofNat i) else b) b) i =
      (bitAt b i || (decide (i < n) && c i)) := by
  induction n with
  | zero => simp
  | succ n ih =>
    have hn' : n < 8 := hn
    rw [List.range_succ, List.foldl_append, List.foldl_cons, List.foldl_nil]
    by_cases hin : i = n
    · subst hin
      by_cases hc : c i
      · rw [if_pos hc, bitAt_or _ hi hi, hc]
        simp
      · rw [if_neg hc, ih (Nat.le_of_lt hn'), Bool.eq_false_iff.mpr hc]
        simp
    · have hlt : decide (i < n + 1) = decide (i < n) := decide_eq_decide.mpr (by omega)
      rw [hlt, ← ih (Nat.le_of_lt hn')]
      by_cases hc : c n
      · rw [if_pos hc, bitAt_or _ hi hn', decide_eq_false hin, Bool.or_false]
      · rw [if_neg hc]

theorem bitAt_ofBits (c : Nat → Bool) {i : Nat} (hi : i < 8) : bitAt (ofBits c) i = c i := by
  rw [ofBits, bitAt_foldl c 0 (Nat.le_refl 8) hi, bitAt_zero hi, decide_eq_true hi]
  rfl

@[simp] theorem length_pack (bits : List Bool) : (pack bits).length = (bits.length + 7) / 8 := by
  simp [pack]

theorem pack_getElem (bits : List Bool) {j : Nat} (hj : j < (pack bits).length) :
    (pack bits)[j] = ofBits fun i => bits.getD (8 * j + i) false := by
  simp [pack]

/-- Bytes with these bits, and none behind them, are the packed ones. -/
theorem pack_eq {bits : List Bool} {bytes : List UInt8}
    (hlen : bytes.length = (bits.length + 7) / 8)
    (h : ∀ j (hj : j < bytes.length), ∀ i < 8, bitAt bytes[j] i = bits.getD (8 * j + i) false) :
    bytes = pack bits := by
  refine List.ext_getElem (hlen.trans (length_pack bits).symm) fun j h1 h2 => ?_
  rw [pack_getElem]
  refine ext fun i hi => ?_
  rw [bitAt_ofBits _ hi]
  exact h j h1 i hi

theorem bitAt_pack {bits : List Bool} {k : Nat} (hk : k < bits.length) :
    bitAt ((pack bits).getD (k / 8) 0) (k % 8) = bits[k] := by
  have hj : k / 8 < (pack bits).length := by
    rw [length_pack]
    omega
  rw [List.getD_eq_getElem?_getD, List.getElem?_eq_getElem hj, Option.getD_some, pack_getElem,
    bitAt_ofBits _ (Nat.mod_lt k (by decide)), Nat.div_add_mod, List.getD_eq_getElem?_getD,
    List.getElem?_eq_getElem hk, Option.getD_some]

end Bits
