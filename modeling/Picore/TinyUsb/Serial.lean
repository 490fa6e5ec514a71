import Picore.Crc32.Update
import Picore.Lib.Memory
import Picore.Modbus.Crc
import Mathlib.Tactic.Ring

/-!
# The serial number (`src/tiny_usb/tiny_usb.c`)

The USB serial number is a string descriptor with the CRC of the board id in hexadecimal digits. It
is built once, in static memory.

Results:
1. `prUsbSerialNumber`, and what a host makes of the descriptor.
2. `serial_parsed`: each call returns the descriptor of the first id, which a host reads as the CRC.
3. `run_words`: the CRC takes in the bits of the id. `serials_distinct`: ids that differ within 32
   bits have different serial numbers.
-/

namespace Picore.TinyUsb

open Memory Crc
open Picore.Crc32 (prCrc32cUpdate ethernet)
open Picore.Modbus (bits)

/-! ## 1. The descriptor -/

def toHex (v : UInt8) : UInt16 :=
  let v := v &&& 0xf
  if v < 10 then 48 + v.toUInt16 else v.toUInt16 - 10 + 97

/-- The loop of `pr_usb_serial_number`, with `n` turns left. -/
def digitLoop : Nat → Nat → UInt32 → Mem UInt16 → Mem UInt16
  | 0, _, _, sernoData => sernoData
  | n + 1, len, uidCrc, sernoData =>
    digitLoop n (len + 1) (uidCrc <<< 4)
      (store sernoData (1 + len) [toHex ((uidCrc >>> 28) &&& 0xf).toUInt8])

/-- `pr_usb_serial_number`, with the id of the board. -/
def prUsbSerialNumber (id : List UInt8) (sernoData : Mem UInt16) : Mem UInt16 :=
  if sernoData 0 ≠ 0 then sernoData
  else
    let uidCrc := prCrc32cUpdate 0 id
    let sernoData := digitLoop 8 0 uidCrc sernoData
    let len := 8
    store sernoData 0 [UInt16.ofNat ((3 <<< 8) ||| (2 * len + 2))]

def descriptor (sernoData : Mem UInt16) : List UInt16 := load sernoData 0 9

/-- The descriptor with the serial number for a board id, as the first call makes it. -/
def serial (id : List UInt8) : List UInt16 := descriptor (prUsbSerialNumber id fun _ => 0)

/-- The descriptors that several calls return, with the id that each of them would read. -/
def serials : Mem UInt16 → List (List UInt8) → List (List UInt16)
  | _, [] => []
  | sernoData, id :: ids =>
    descriptor (prUsbSerialNumber id sernoData) :: serials (prUsbSerialNumber id sernoData) ids

def digitValue (c : UInt16) : Option Nat :=
  if 48 ≤ c ∧ c < 58 then some (c.toNat - 48)
  else if 97 ≤ c ∧ c < 103 then some (c.toNat - 87)
  else none

def digitsValue (acc : Nat) : List UInt16 → Option Nat
  | [] => some acc
  | c :: cs => digitValue c >>= fun d => digitsValue (acc * 16 + d) cs

/-- What a host reads: a string descriptor of the length that it has, and its digits. -/
def parse : List UInt16 → Option Nat
  | [] => none
  | head :: digits =>
    if head >>> 8 = 3 ∧ (head &&& 0xff).toNat = 2 * digits.length + 2 then digitsValue 0 digits
    else none

/-! ## 2. Reading it -/

namespace SerialLemmas

def digits : Nat → UInt32 → List UInt16
  | 0, _ => []
  | n + 1, crc => toHex ((crc >>> 28) &&& 0xf).toUInt8 :: digits n (crc <<< 4)

@[simp] theorem length_digits (n : Nat) (crc : UInt32) : (digits n crc).length = n := by
  induction n generalizing crc with
  | zero => rfl
  | succ n ih => rw [digits, List.length_cons, ih]

theorem digitLoop_eq (n len : Nat) (crc : UInt32) (m : Mem UInt16) :
    digitLoop n len crc m = store m (1 + len) (digits n crc) := by
  induction n generalizing len crc m with
  | zero => exact (store_nil m _).symm
  | succ n ih =>
    have hcons := store_append m (1 + len) [toHex ((crc >>> 28) &&& 0xf).toUInt8]
      (digits n (crc <<< 4))
    rw [digitLoop, ih]
    exact hcons.symm

theorem descriptor_eq (id : List UInt8) {m : Mem UInt16} (h : m 0 = 0) :
    descriptor (prUsbSerialNumber id m) = 0x312 :: digits 8 (prCrc32cUpdate 0 id) := by
  have hlen := length_digits 8 (prCrc32cUpdate 0 id)
  have hdigits := load_store_self m 1 (digits 8 (prCrc32cUpdate 0 id))
  rw [hlen] at hdigits
  have htail (m : Mem UInt16) (x : UInt16) : load (store m 0 [x]) (0 + 1) 8 = load m 1 8 :=
    load_store_disjoint (.inr (Nat.le_refl 1))
  rw [prUsbSerialNumber, if_neg (not_not.mpr h)]
  simp only [digitLoop_eq]
  rw [descriptor, load_append _ 0 1 8, htail, hdigits]
  rfl

theorem prUsbSerialNumber_cached (id : List UInt8) {m : Mem UInt16} (h : m 0 ≠ 0) :
    prUsbSerialNumber id m = m := by
  rw [prUsbSerialNumber, if_pos h]

theorem digitValue_toHex : ∀ v : Fin 16, digitValue (toHex (UInt8.ofNat v)) = some v.val := by
  decide

theorem digitValue_top (crc : UInt32) :
    digitValue (toHex ((crc >>> 28) &&& 0xf).toUInt8) = some (crc.toNat / 16 ^ 7) := by
  have hcrc := crc.toNat_lt
  have hlt : crc.toNat / 16 ^ 7 < 16 := by omega
  have htop : ((crc >>> 28) &&& 0xf).toUInt8 = UInt8.ofNat (crc.toNat / 16 ^ 7) := by
    have hand : ((crc >>> 28) &&& 0xf).toNat = crc.toNat / 16 ^ 7 := by
      rw [UInt32.toNat_and, UInt32.toNat_shiftRight]
      show crc.toNat >>> 28 &&& (2 ^ 4 - 1) = _
      rw [Nat.and_two_pow_sub_one_eq_mod, Nat.shiftRight_eq_div_pow]
      exact Nat.mod_eq_of_lt hlt
    refine UInt8.toNat_inj.mp ?_
    rw [UInt32.toNat_toUInt8, hand, UInt8.toNat_ofNat']
  rw [htop]
  exact digitValue_toHex ⟨_, hlt⟩

theorem div_split (x k n : Nat) :
    x / 16 ^ k = 16 ^ n * (x / 16 ^ (k + n)) + x % 16 ^ (k + n) / 16 ^ k := by
  conv_lhs => rw [← Nat.div_add_mod x (16 ^ (k + n))]
  rw [Nat.pow_add, Nat.mul_assoc, Nat.mul_add_div (Nat.pow_pos (by decide))]

theorem shift_rest (x k : Nat) : 16 * x / 16 ^ (k + 1) = x / 16 ^ k := by
  rw [Nat.pow_succ, Nat.mul_comm (16 ^ k), Nat.mul_div_mul_left _ _ (by decide)]

theorem digitsValue_digits {n : Nat} (hn : n ≤ 8) (acc : Nat) (crc : UInt32) :
    digitsValue acc (digits n crc) = some (acc * 16 ^ n + crc.toNat / 16 ^ (8 - n)) := by
  induction n generalizing acc crc with
  | zero =>
    have hzero : crc.toNat / 16 ^ 8 = 0 := Nat.div_eq_of_lt crc.toNat_lt
    rw [Nat.sub_zero, hzero, Nat.pow_zero, Nat.mul_one]
    rfl
  | succ n ih =>
    obtain ⟨k, hk⟩ : ∃ k, k + n = 7 := ⟨7 - n, by omega⟩
    have hshift : (crc <<< 4).toNat = 16 * (crc.toNat % 16 ^ 7) := by
      rw [UInt32.toNat_shiftLeft]
      show crc.toNat <<< 4 % 2 ^ 32 = _
      rw [Nat.shiftLeft_eq]
      omega
    have hsplit := div_split crc.toNat k n
    rw [hk] at hsplit
    have hle : 8 - n = k + 1 ∧ 8 - (n + 1) = k := by omega
    rw [digits, digitsValue, digitValue_top, Option.bind_eq_bind, Option.bind_some,
      ih (Nat.le_of_succ_le hn), hshift, hle.1, hle.2, shift_rest, hsplit]
    congr 1
    ring

theorem parse_descriptor (crc : UInt32) : parse (0x312 :: digits 8 crc) = some crc.toNat := by
  have hhead : (0x312 : UInt16) >>> 8 = 3 ∧
      ((0x312 : UInt16) &&& 0xff).toNat = 2 * (digits 8 crc).length + 2 := by
    rw [length_digits]
    decide
  rw [parse, if_pos hhead, digitsValue_digits (Nat.le_refl 8), Nat.zero_mul, Nat.zero_add,
    Nat.sub_self, Nat.pow_zero, Nat.div_one]

/-- Later calls return what the first one has made. -/
theorem serials_eq {m : Mem UInt16} (h : m 0 ≠ 0) (ids : List (List UInt8)) :
    serials m ids = List.replicate ids.length (descriptor m) := by
  induction ids with
  | nil => rfl
  | cons id ids ih => rw [serials, prUsbSerialNumber_cached id h, ih, List.length_cons,
      List.replicate_succ]

theorem serial_parse (id : List UInt8) :
    parse (serial id) = some (prCrc32cUpdate 0 id).toNat := by
  have hserial : serial id = 0x312 :: digits 8 (prCrc32cUpdate 0 id) := descriptor_eq id rfl
  rw [hserial, parse_descriptor]

end SerialLemmas

open SerialLemmas in
/-- However often the serial number is asked for, all calls return the descriptor of the id that the
first one has read, and a host reads the CRC of that id. -/
theorem serial_parsed (id : List UInt8) (ids : List (List UInt8)) :
    serials (fun _ => 0) (id :: ids) = List.replicate (ids.length + 1) (serial id) ∧
      parse (serial id) = some (prCrc32cUpdate 0 id).toNat := by
  have hserial : serial id = 0x312 :: digits 8 (prCrc32cUpdate 0 id) := descriptor_eq id rfl
  have hhead : prUsbSerialNumber id (fun _ => 0) 0 ≠ 0 := by
    have hfirst : serial id = prUsbSerialNumber id (fun _ => 0) 0 ::
        load (prUsbSerialNumber id fun _ => 0) 1 8 := load_append _ 0 1 8
    rw [hserial] at hfirst
    rw [← (List.cons.inj hfirst).1]
    decide
  refine ⟨?_, serial_parse id⟩
  rw [serials, serials_eq hhead, List.replicate_succ]
  rfl

/-! ## 3. Different boards -/

namespace SerialLemmas

/-- A byte goes into the CRC bit by bit. -/
theorem run_words (data : List UInt8) (s : BitVec 32) :
    run ethernet.toBitVec 8 s (Crc32.words data) = feed ethernet.toBitVec s (bits data) := by
  induction data generalizing s with
  | nil => rfl
  | cons d data ih =>
    have hbyte : ofBits 32 ((List.range 8).map (Bits.bitAt d)) = d.toUInt32.toBitVec := by
      refine BitVec.eq_of_getLsbD_eq fun i hi => ?_
      have hword : d.toUInt32.toBitVec.getLsbD i = d.toNat.testBit i := by
        rw [← UInt8.toNat_toUInt32]
        rfl
      rw [getLsbD_ofBits 32 _ hi, hword, List.getD_eq_getElem?_getD]
      rcases Nat.lt_or_ge i 8 with h8 | h8
      · rw [List.getElem?_map, List.getElem?_range h8, Option.map_some, Option.getD_some,
          Bits.bitAt_eq d h8]
      · have hlt : d.toNat < 2 ^ i :=
          Nat.lt_of_lt_of_le d.toNat_lt (Nat.pow_le_pow_right (by decide) h8)
        rw [List.getElem?_eq_none (by simpa using h8), Option.getD_none, Nat.testBit_lt_two_pow hlt]
    have hcons : bits (d :: data) = (List.range 8).map (Bits.bitAt d) ++ bits data := rfl
    have hfeed : feed ethernet.toBitVec s ((List.range 8).map (Bits.bitAt d)) =
        (step ethernet.toBitVec)^[8] (s ^^^ d.toUInt32.toBitVec) := by
      rw [feed_eq _ _ (by simp), hbyte, List.length_map, List.length_range]
    rw [hcons, feed_append, hfeed, ← ih]
    rfl

end SerialLemmas

open SerialLemmas in
/-- Two ids of the same length that differ, but only within 32 neighbouring bits, have different
serial numbers: their CRCs differ by that of a burst, which is never zero. -/
theorem serials_distinct {a b : List UInt8} (hlen : a.length = b.length) (hne : a ≠ b)
    (hburst : Burst 32 (bits (List.zipWith (· ^^^ ·) a b))) : serial a ≠ serial b := by
  intro heq
  have hcrc : prCrc32cUpdate 0 a = prCrc32cUpdate 0 b := by
    have hparse := congrArg parse heq
    rw [(serial_parse a), (serial_parse b)] at hparse
    exact UInt32.toNat_inj.mp (Option.some.inj hparse)
  rw [Crc32.prCrc32cUpdate_eq, Crc32.prCrc32cUpdate_eq, ← UInt32.toBitVec_inj,
    Crc32.reflectedCrc_eq_run, Crc32.reflectedCrc_eq_run, BitVec.not_inj, run_words,
    run_words] at hcrc
  -- What both have in common goes, and the burst is left.
  have hxor := feed_xor ethernet.toBitVec (~~~(0 : UInt32).toBitVec) (~~~(0 : UInt32).toBitVec)
    (show (bits a).length = (bits b).length by simp [hlen])
  rw [hcrc, BitVec.xor_self, BitVec.xor_self, ← Modbus.bits_xor hlen] at hxor
  obtain ⟨x, hmem, hx⟩ : ∃ x ∈ List.zipWith (· ^^^ ·) a b, x ≠ 0 := by
    by_contra hnone
    simp only [not_exists, not_and, not_not] at hnone
    refine hne (List.ext_getElem hlen fun i ha hb => ?_)
    have hi : i < (List.zipWith (· ^^^ ·) a b).length := by
      rw [List.length_zipWith]
      exact Nat.lt_min.mpr ⟨ha, hb⟩
    have hzero := hnone _ (List.getElem_mem hi)
    rw [List.getElem_zipWith] at hzero
    exact UInt8.xor_eq_zero_iff.mp hzero
  exact feed_burst_ne_zero (p := ethernet.toBitVec) (by decide) hburst
    (Modbus.mem_bits hmem hx) hxor

open SerialLemmas in
/-- Two ids that differ in their last four bytes have different serial numbers. -/
theorem serials_distinct_lastWord :
    serial [0xe6, 0x60, 0x58, 0x38, 0x83, 0x1b, 0x40, 0x2d] ≠
      serial [0xe6, 0x60, 0x58, 0x38, 0x83, 0x7c, 0xa9, 0x2d] := by
  refine serials_distinct rfl (by decide) ⟨40, fun i hi => ?_⟩
  have hbefore : ∀ i < 40, (bits (List.zipWith (· ^^^ ·)
      [0xe6, 0x60, 0x58, 0x38, 0x83, 0x1b, 0x40, 0x2d]
      [0xe6, 0x60, 0x58, 0x38, 0x83, 0x7c, 0xa9, 0x2d]))[i]? ≠ some true := by decide
  have hlt : i < 64 := (List.getElem?_eq_some_iff.mp hi).1
  exact ⟨Nat.le_of_not_lt fun hlow => hbefore i hlow hi, Nat.lt_trans hlt (by decide)⟩

end Picore.TinyUsb
