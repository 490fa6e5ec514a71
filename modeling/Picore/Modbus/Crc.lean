import Picore.Lib.Bits
import Picore.Lib.CrcBits
import Picore.Modbus.Protocol

/-!
# The CRC of a frame (`src/modbus/modbus_crc16.c`)

The bits of a frame go into the CRC byte by byte, the lowest one first. The two bytes of a CRC have
its bits in the same order, so that they take it to zero.

Results:
1. `update_toBitVec`: the CRC of the bits.
2. `update_serialize`, `crcValid_withCrc`: the CRC over a frame with its CRC is zero.
3. `crc_detects`: a frame with its CRC is accepted, also with zeros behind it. When bits within 16
   places are changed, or an odd number of bits, it is not.
-/

namespace Picore.Modbus

open Crc Bits

def poly : BitVec 16 := 0xa001

/-- The bits of bytes, those of a byte from the lowest one on. -/
def bits (data : List UInt8) : List Bool := data.flatMap fun b => (List.range 8).map (bitAt b)

/-! ## 1. The bits of a frame -/

theorem bits_append (xs ys : List UInt8) : bits (xs ++ ys) = bits xs ++ bits ys :=
  List.flatMap_append

@[simp] theorem length_bits (data : List UInt8) : (bits data).length = 8 * data.length := by
  induction data with
  | nil => rfl
  | cons b data ih =>
    rw [bits, List.flatMap_cons, List.length_append, ← bits, ih]
    simp
    omega

theorem word_bit (word : UInt8) (k : Nat) :
    (word >>> UInt8.ofNat k) &&& 1 = if bitAt word k then 1 else 0 := by
  rw [bitAt]
  have hlt : ((word >>> UInt8.ofNat k) &&& 1).toNat < 2 := by
    rw [UInt8.toNat_and]
    exact Nat.lt_of_le_of_lt Nat.and_le_right (by decide)
  generalize (word >>> UInt8.ofNat k) &&& 1 = b at hlt ⊢
  by_cases h0 : b = 0
  · simp [h0]
  · have hne : b.toNat ≠ 0 := fun h => h0 (UInt8.toNat_inj.1 h)
    have h1 : b = 1 := UInt8.toNat_inj.1 (show b.toNat = 1 by omega)
    simp [h1]

theorem low_bit (x : UInt16) : x &&& 1 = 0 ↔ x.toBitVec.getLsbD 0 = false := by
  rw [← UInt16.toBitVec_inj, UInt16.toBitVec_and]
  show x.toBitVec &&& 1#16 = 0#16 ↔ _
  rw [BitVec.and_one_eq_setWidth_ofBool_getLsbD]
  cases x.toBitVec.getLsbD 0 <;> decide

theorem insert1_toBitVec (state : UInt16) (b : Bool) :
    (modbusCrc16Insert1 state (if b then 1 else 0)).toBitVec =
      step poly (state.toBitVec ^^^ bit 16 b) := by
  have hsum : (state ^^^ (if b then (1 : UInt8) else 0).toUInt16).toBitVec =
      state.toBitVec ^^^ bit 16 b := by
    rw [UInt16.toBitVec_xor]
    cases b <;> rfl
  have hshift : (state.toBitVec ^^^ bit 16 b) >>> 1 = state.toBitVec >>> 1 := by
    rw [BitVec.ushiftRight_xor_distrib]
    cases b <;> exact BitVec.xor_zero
  unfold modbusCrc16Insert1
  simp only [low_bit, hsum]
  rw [step, hshift, UInt16.toBitVec_xor]
  cases (state.toBitVec ^^^ bit 16 b).getLsbD 0 <;> rfl

theorem update_toBitVec (state : UInt16) (data : List UInt8) :
    (modbusCrc16Update state data).toBitVec = feed poly state.toBitVec (bits data) := by
  have hbyte (word : UInt8) (ks : List Nat) (state : UInt16) :
      (ks.foldl (fun state b =>
        modbusCrc16Insert1 state ((word >>> UInt8.ofNat b) &&& 1)) state).toBitVec =
        feed poly state.toBitVec (ks.map (bitAt word)) := by
    induction ks generalizing state with
    | nil => rfl
    | cons k ks ih =>
      rw [List.foldl_cons, ih, word_bit, insert1_toBitVec]
      rfl
  induction data generalizing state with
  | nil => rfl
  | cons word data ih =>
    have hcons : bits (word :: data) = (List.range 8).map (bitAt word) ++ bits data := rfl
    rw [hcons, feed_append, ← hbyte]
    exact ih _

/-! ## 2. The CRC of its own bits -/

theorem bitAt_toUInt8 (state : UInt16) {i : Nat} (hi : i < 8) :
    bitAt state.toUInt8 i = state.toBitVec.getLsbD i := by
  rw [bitAt_eq _ hi]
  show (state.toUInt8.toBitVec).getLsbD i = _
  rw [UInt16.toBitVec_toUInt8, BitVec.getLsbD_setWidth]
  simp [hi]

theorem bits_serialize (state : UInt16) :
    bits (modbusCrc16Serialize state) = (List.range 16).map state.toBitVec.getLsbD := by
  have hlow : (List.range 8).map (bitAt state.toUInt8) =
      (List.range 8).map state.toBitVec.getLsbD :=
    List.map_congr_left fun i hi => bitAt_toUInt8 state (List.mem_range.1 hi)
  have hhigh : (List.range 8).map (bitAt (state >>> 8).toUInt8) =
      ((List.range 8).map (8 + ·)).map state.toBitVec.getLsbD := by
    rw [List.map_map]
    refine List.map_congr_left fun i hi => ?_
    rw [bitAt_toUInt8 _ (List.mem_range.1 hi), UInt16.toBitVec_shiftRight]
    exact BitVec.getLsbD_ushiftRight ..
  have hrange : List.range 16 = List.range 8 ++ (List.range 8).map (8 + ·) := by decide
  have hbits : bits (modbusCrc16Serialize state) = (List.range 8).map (bitAt state.toUInt8) ++
      ((List.range 8).map (bitAt (state >>> 8).toUInt8) ++ []) := rfl
  rw [hbits, List.append_nil, hrange, List.map_append, ← hlow, ← hhigh]

theorem update_append (state : UInt16) (xs ys : List UInt8) :
    modbusCrc16Update state (xs ++ ys) = modbusCrc16Update (modbusCrc16Update state xs) ys :=
  List.foldl_append

/-- The CRC of its own bytes takes a state to zero. -/
theorem update_serialize (state : UInt16) :
    modbusCrc16Update state (modbusCrc16Serialize state) = modbusCrc16CheckState := by
  refine UInt16.toBitVec_inj.mp ?_
  rw [update_toBitVec, bits_serialize, feed_eq _ _ (by simp), ofBits_range, BitVec.xor_self,
    (iterate_step_xor poly _).zero]
  rfl

theorem crcValid_withCrc (data : List UInt8) : crcValid (withCrc data) = true := by
  unfold crcValid withCrc
  rw [beq_iff_eq, update_append, update_serialize]

theorem bits_zeros (n : Nat) : bits (List.replicate n 0) = List.replicate (8 * n) false := by
  induction n with
  | zero => rfl
  | succ n ih =>
    have hzero : bits [0] = List.replicate 8 false := by decide
    rw [List.replicate_succ, ← List.singleton_append, bits_append, hzero, ih,
      List.replicate_append_replicate]
    congr 1
    omega

theorem update_zeros (n : Nat) :
    modbusCrc16Update modbusCrc16CheckState (List.replicate n 0) = modbusCrc16CheckState := by
  refine UInt16.toBitVec_inj.mp ?_
  rw [update_toBitVec, bits_zeros, feed_replicate_false]
  exact (iterate_step_xor poly _).zero

/-! ## 3. Damage -/

theorem bits_xor {xs ys : List UInt8} (h : xs.length = ys.length) :
    bits (List.zipWith (· ^^^ ·) xs ys) = List.zipWith (· ^^ ·) (bits xs) (bits ys) := by
  induction xs generalizing ys with
  | nil => simp [bits]
  | cons x xs ih =>
    cases ys with
    | nil => cases h
    | cons y ys =>
      have hbyte : (List.range 8).map (bitAt (x ^^^ y)) = List.zipWith (· ^^ ·)
          ((List.range 8).map (bitAt x)) ((List.range 8).map (bitAt y)) := by
        refine List.ext_getElem (by simp) fun i hi _ => ?_
        simp only [List.getElem_map, List.getElem_range, List.getElem_zipWith]
        exact bitAt_xor x y (by simpa using hi)
      have hcons (b : UInt8) (data : List UInt8) :
          bits (b :: data) = (List.range 8).map (bitAt b) ++ bits data := rfl
      rw [List.zipWith_cons_cons, hcons, hcons, hcons, List.zipWith_append (by simp), ← hbyte,
        ih (Nat.succ.inj h)]

theorem mem_bits {data : List UInt8} {b : UInt8} (hmem : b ∈ data) (hb : b ≠ 0) :
    true ∈ bits data := by
  by_contra hnone
  refine hb (Bits.ext fun i hi => ?_)
  rw [bitAt_zero hi, Bool.eq_false_iff]
  intro hbit
  exact hnone (List.mem_flatMap.2 ⟨b, hmem, List.mem_map.2 ⟨i, List.mem_range.2 hi, hbit⟩⟩)

/-- The bytes as a wire delivers them that changes the bits set in `e`. -/
def damaged (data e : List UInt8) : List UInt8 := List.zipWith (· ^^^ ·) data e

/-- The CRC over an accepted sequence that has been damaged differs from the accepted value by the
remainder of the damage alone. -/
theorem update_damaged {data e : List UInt8} (hlen : e.length = data.length)
    (haccepted : modbusCrc16Update modbusCrc16Init data = modbusCrc16CheckState) :
    (modbusCrc16Update modbusCrc16Init (damaged data e)).toBitVec =
      feed poly 0 (bits e) := by
  have hzero : feed poly modbusCrc16Init.toBitVec (bits data) = 0 := by
    rw [← update_toBitVec, haccepted]
    rfl
  have hstart : modbusCrc16Init.toBitVec = modbusCrc16Init.toBitVec ^^^ 0 := BitVec.xor_zero.symm
  rw [update_toBitVec, damaged, bits_xor hlen.symm, hstart, feed_xor _ _ _ (by simp [hlen]), hzero]
  exact BitVec.zero_xor

/-- Any bytes with their CRC are accepted, also with zeros behind them. An accepted sequence of
which bits within 16 places are changed, or an odd number of bits, is not accepted. -/
theorem crc_detects :
    (∀ (d : List UInt8) (n : Nat),
      let frame := d ++ modbusCrc16Serialize (modbusCrc16Update modbusCrc16Init d)
      modbusCrc16Update modbusCrc16Init frame = modbusCrc16CheckState ∧
        modbusCrc16Update modbusCrc16Init (frame ++ List.replicate n 0) = modbusCrc16CheckState) ∧
    ∀ data e : List UInt8, modbusCrc16Update modbusCrc16Init data = modbusCrc16CheckState →
      e.length = data.length → (∃ b ∈ e, b ≠ 0) →
      Burst 16 (bits e) ∨ (bits e).count true % 2 = 1 →
      modbusCrc16Update modbusCrc16Init (damaged data e) ≠ modbusCrc16CheckState := by
  refine ⟨fun d n => ?_, fun data e haccepted hlen ⟨b, hmem, hb⟩ herror hagain => ?_⟩
  · intro frame
    have hframe : modbusCrc16Update modbusCrc16Init frame = modbusCrc16CheckState := by
      rw [update_append, update_serialize]
    exact ⟨hframe, by rw [update_append, hframe, update_zeros]⟩
  · have hfeed := update_damaged hlen haccepted
    rw [hagain] at hfeed
    rcases herror with hburst | hodd
    · exact feed_burst_ne_zero (p := poly) (by decide) hburst (mem_bits hmem hb) hfeed.symm
    · exact feed_odd_ne_zero (p := poly) (by decide) hodd hfeed.symm

theorem crc_detects_lastBit :
    let data : List UInt8 := [0x01, 0x07, 0x41, 0xe2]
    let e : List UInt8 := [0, 0, 0, 0x80]
    modbusCrc16Update modbusCrc16Init data = modbusCrc16CheckState ∧
      (bits e).count true % 2 = 1 ∧
      modbusCrc16Update modbusCrc16Init (damaged data e) ≠ modbusCrc16CheckState := by
  intro data e
  have haccepted : modbusCrc16Update modbusCrc16Init data = modbusCrc16CheckState := by decide
  have hodd : (bits e).count true % 2 = 1 := by decide
  exact ⟨haccepted, hodd,
    crc_detects.2 data e haccepted rfl ⟨0x80, by simp [e], by decide⟩ (.inr hodd)⟩

end Picore.Modbus
