import Picore.Spi.Basic

/-!
# Transfers with the least significant bit first

The hardware shifts the most significant bit of a byte first. For the other devices a transfer goes
in chunks: the bytes to send are reversed into a buffer of their own, those received are reversed
where they are.

Results:
1. `bitrev_eq`, `bitrevBuf_eq`: the table reverses a byte, the loop a range of memory.
2. `lsbLoop_eq`: the chunks are one exchange of the reversed bytes.
3. `lsbFirst_reversed`: the bits of each byte are sent and received in the opposite order, as in a
   plain transfer of reversed data with the result reversed.
-/

namespace Picore.Spi

open Memory
open Picore.I2c (PrError)

/-- The bits of a byte, in the opposite order. -/
def bitReverse (b : UInt8) : UInt8 := ⟨b.toBitVec.reverse⟩

/-- The data of a transfer. `NULL` stands for zeros. -/
def data (mem : Mem UInt8) (mosi : Option Nat) (byteCount : Nat) : List UInt8 :=
  match mosi with
  | some p => load mem p byteCount
  | none => List.replicate byteCount 0

/-- No byte that is received replaces one that is yet to be sent: the buffers are one, or lie
apart, or `miso` starts first. A single chunk is sent from a copy in any case. -/
def Clear (mosi miso : Option Nat) (byteCount : Nat) : Prop :=
  ∀ p ∈ mosi, ∀ q ∈ miso, q ≤ p ∨ p + byteCount ≤ q ∨ byteCount ≤ bitrevChunkSize

/-- The `byteCount` bytes of `miso` are reversed where they are. -/
def reverseAt (mem : Mem UInt8) (miso : Option Nat) (byteCount : Nat) : Mem UInt8 :=
  match miso with
  | some q => store mem q ((load mem q byteCount).map bitReverse)
  | none => mem

/-- `pr_spi_device_transfer` with reversed data, one plain transfer and a reversed result. -/
def reversedTransfer (per : Peripheral) (dev : SpiDevice) (mosi miso : Option Nat)
    (byteCount : Nat) (flags : UInt8) (mem : Mem UInt8) (hw : Hw) : PrError × Mem UInt8 × Hw :=
  let hw := dev.start flags hw
  let src := mosi.map fun p => (load mem p byteCount).map bitReverse
  let hwMode := dev.mode &&& ~~~prSpiDeviceModeLsbFirst
  let (_, mem, hw) := prSpiMasterTransfer per hwMode dev.bitrate src miso byteCount mem hw
  (.ok, reverseAt mem miso byteCount, dev.stop flags hw)

/-! ## 1. Bytes in the opposite order -/

@[simp] theorem bitReverse_zero : bitReverse 0 = 0 := by decide

theorem bitrevTable_get : ∀ i : Fin 256, bitrevTable.get i = bitReverse (UInt8.ofNat i) := by
  decide +kernel

theorem bitrev_eq (b : UInt8) : bitrev b = bitReverse b := by
  rw [bitrev, bitrevTable_get]
  simp

theorem bitrevBuf_eq (mem : Mem UInt8) (buf len : Nat) :
    bitrevBuf mem buf len = store mem buf ((load mem buf len).map bitReverse) := by
  induction len with
  | zero => simp [bitrevBuf]
  | succ len ih =>
    have hnext : bitrevBuf mem buf (len + 1) =
        store (bitrevBuf mem buf len) (buf + len) [bitrev (bitrevBuf mem buf len (buf + len))] := by
      simp [bitrevBuf, List.range_succ, List.foldl_append]
    have hcell : bitrevBuf mem buf len (buf + len) = mem (buf + len) := by
      rw [ih, store_apply_of_ge (by simp)]
    have hload : load mem (buf + len) 1 = [mem (buf + len)] := rfl
    rw [hnext, hcell, ih, bitrev_eq, load_append, List.map_append, store_append, hload]
    simp

/-! ## 2. The chunks -/

@[simp] theorem length_data (mem : Mem UInt8) (mosi : Option Nat) (byteCount : Nat) :
    (data mem mosi byteCount).length = byteCount := by
  cases mosi <;> simp [data]

theorem data_append (mem : Mem UInt8) (mosi : Option Nat) (j k : Nat) :
    data mem mosi (j + k) = data mem mosi j ++ data mem (mosi.map (· + j)) k := by
  cases mosi with
  | none => simp [data, List.replicate_append_replicate]
  | some p => simp [data, load_append]

@[simp] theorem receive_nil (mem : Mem UInt8) (miso : Option Nat) : receive mem miso [] = mem := by
  cases miso <;> simp [receive]

theorem receive_append (mem : Mem UInt8) (miso : Option Nat) (xs ys : List UInt8) :
    receive mem miso (xs ++ ys) =
      receive (receive mem miso xs) (miso.map (· + xs.length)) ys := by
  cases miso with
  | none => rfl
  | some q => exact store_append mem q xs ys

/-- The bytes on the wire for those of the data from `offset` on. -/
def wire (mem : Mem UInt8) (mosi : Option Nat) (offset count : Nat) : List UInt8 :=
  (data mem (mosi.map (· + offset)) count).map bitReverse

@[simp] theorem length_wire (mem : Mem UInt8) (mosi : Option Nat) (offset count : Nat) :
    (wire mem mosi offset count).length = count := by
  simp [wire]

theorem wire_append (mem : Mem UInt8) (mosi : Option Nat) (offset j k : Nat) :
    wire mem mosi offset (j + k) = wire mem mosi offset j ++ wire mem mosi (offset + j) k := by
  rw [wire, data_append, List.map_append]
  cases mosi <;> simp [wire, Nat.add_assoc]

/-- What a chunk receives leaves the data of the next ones. -/
theorem wire_receive {mem : Mem UInt8} {mosi miso : Option Nat}
    {byteCount offset chunk count : Nat} {xs : List UInt8} (h : Clear mosi miso byteCount)
    (hlen : xs.length = chunk) (hcount : offset + chunk + count = byteCount)
    (hone : byteCount ≤ bitrevChunkSize → count = 0) :
    wire (receive mem (miso.map (· + offset)) xs) mosi (offset + chunk) count =
      wire mem mosi (offset + chunk) count := by
  cases mosi with
  | none => rfl
  | some p =>
    cases miso with
    | none => rfl
    | some q =>
      simp only [wire, data, receive, Option.map_some]
      rcases h p rfl q rfl with hle | hge | hchunk
      · rw [load_store_disjoint (by omega)]
      · rw [load_store_disjoint (by omega)]
      · rw [hone hchunk, load_zero, load_zero]

theorem chunk_src (mem : Mem UInt8) (mosi : Option Nat) (offset chunk : Nat) :
    (mosi.map fun p => (load mem (p + offset) chunk).map bitrev).getD (List.replicate chunk 0) =
      wire mem mosi offset chunk := by
  cases mosi with
  | none => simp [wire, data]
  | some p => simp [wire, data, bitrev_eq]

/-- The bytes that are received are reversed in the destination. -/
theorem reverseAt_receive (mem : Mem UInt8) (miso : Option Nat) {rdata : List UInt8}
    {byteCount : Nat} (h : rdata.length = byteCount) :
    reverseAt (receive mem miso rdata) miso byteCount =
      receive mem miso (rdata.map bitReverse) := by
  cases miso with
  | none => rfl
  | some q =>
    simp only [reverseAt, receive, ← h, load_store_self]
    exact store_store mem q (by simp)

def chunkLen (byteCount offset : Nat) : Nat := min (byteCount - offset) bitrevChunkSize

theorem lsbLoop_chunk (per : Peripheral) (dev : SpiDevice) (mosi miso : Option Nat)
    {byteCount offset : Nat} (mem : Mem UInt8) (hw : Hw) (h : offset < byteCount) :
    let chunk := chunkLen byteCount offset
    let src := wire mem mosi offset chunk
    lsbLoop per dev mosi miso byteCount offset mem hw =
      lsbLoop per dev mosi miso byteCount (offset + chunk)
        (receive mem (miso.map (· + offset)) ((answers per hw.sent src).map bitReverse))
        ((hw.format (dev.mode &&& ~~~prSpiDeviceModeLsbFirst) dev.bitrate).exchange per src) := by
  intro chunk src
  have hchunk : (if byteCount - offset > bitrevChunkSize then bitrevChunkSize
      else byteCount - offset) = chunk := by
    simp only [chunk, chunkLen]
    grind
  have hlen : (answers per hw.sent src).length = chunk := by
    simp [src]
  rw [lsbLoop, if_pos h, ← reverseAt_receive mem (miso.map (· + offset)) hlen]
  simp only [hchunk, prSpiMasterTransfer_eq, chunk_src, bitrevBuf_eq]
  rfl

/-- From `offset` on, the chunks are one exchange of the reversed bytes. -/
theorem lsbLoop_eq (per : Peripheral) (dev : SpiDevice) {mosi miso : Option Nat}
    {byteCount offset count : Nat} (mem : Mem UInt8) (hw : Hw) (h : Clear mosi miso byteCount)
    (hcount : offset + count = byteCount) :
    lsbLoop per dev mosi miso byteCount offset mem hw =
      (receive mem (miso.map (· + offset))
          ((answers per hw.sent (wire mem mosi offset count)).map bitReverse),
        if count = 0 then hw
        else (hw.format (dev.mode &&& ~~~prSpiDeviceModeLsbFirst) dev.bitrate).exchange per
          (wire mem mosi offset count)) := by
  induction count using Nat.strongRecOn generalizing offset mem hw with
  | ind count ih =>
  rcases Nat.eq_zero_or_pos count with rfl | hpos
  · have hsrc : wire mem mosi offset 0 = [] := List.eq_nil_of_length_eq_zero (length_wire ..)
    rw [lsbLoop, if_neg (by omega), hsrc]
    simp [answers]
  -- the first chunk, and the loop from behind it
  obtain ⟨rest, hrest⟩ : ∃ rest, count = chunkLen byteCount offset + rest :=
    Nat.exists_eq_add_of_le (by rw [chunkLen]; omega)
  have hchunk : 0 < chunkLen byteCount offset := by
    rw [chunkLen, bitrevChunkSize]
    omega
  have hone : byteCount ≤ bitrevChunkSize → rest = 0 := by
    intro hle
    rw [chunkLen, Nat.min_eq_left (Nat.le_trans (Nat.sub_le ..) hle)] at hrest
    omega
  rw [lsbLoop_chunk per dev mosi miso mem hw (by omega)]
  generalize chunkLen byteCount offset = chunk at hrest hchunk ⊢
  subst hrest
  have hcount' : offset + chunk + rest = byteCount := by omega
  have hmiso : (miso.map (· + offset)).map (· + chunk) = miso.map (· + (offset + chunk)) := by
    cases miso <;> simp [Nat.add_assoc]
  rw [ih rest (by omega) _ _ hcount', wire_receive h (by simp) hcount' hone, wire_append,
    answers_append, List.map_append, receive_append, if_neg (by omega : chunk + rest ≠ 0)]
  refine Prod.ext ?_ ?_
  · simp [hmiso]
  · rcases Nat.eq_zero_or_pos rest with rfl | hrest
    · have hsrc : wire mem mosi (offset + chunk) 0 = [] :=
        List.eq_nil_of_length_eq_zero (length_wire ..)
      simp [hsrc]
    · simp [exchange_append, Nat.ne_of_gt hrest]

/-! ## 3. Devices with the least significant bit first -/

/-- What a transfer of reversed bytes leaves: `r` is the result, the memory and the bus after it. -/
structure Reversed (per : Peripheral) (mosi miso : Option Nat) (byteCount : Nat) (mem : Mem UInt8)
    (hw : Hw) (r : PrError × Mem UInt8 × Hw) : Prop where
  status : r.1 = .ok
  /-- The bytes on the wire, each with its answer, and where the answer ends up. -/
  shifted : ∃ shifts, r.2.2.log = hw.log ++ shifts ∧ shifts.length = byteCount ∧
    ∀ i s, shifts[i]? = some s →
      s.mosi = mosi.elim 0 (fun p => bitReverse (mem (p + i))) ∧
      s.miso = per (hw.sent ++ (shifts.take (i + 1)).map (·.mosi)) ∧
      ∀ q ∈ miso, r.2.1 (q + i) = bitReverse s.miso
  /-- The memory beside the destination. -/
  untouched : ∀ a, (∀ q ∈ miso, a < q ∨ q + byteCount ≤ a) → r.2.1 a = mem a

/-- The wires of the bus: the bytes, and the chip select. -/
def Hw.wires (hw : Hw) : List Shift × Pin × List Pin := (hw.log, hw.csn, hw.csnLog)

theorem start_log (dev : SpiDevice) (flags : UInt8) (hw : Hw) :
    (dev.start flags hw).log = hw.log := by
  unfold SpiDevice.start
  split_ifs <;> rfl

theorem stop_log (dev : SpiDevice) (flags : UInt8) (hw : Hw) :
    (dev.stop flags hw).log = hw.log := by
  unfold SpiDevice.stop
  split_ifs <;> rfl

theorem stop_wires {dev : SpiDevice} {flags : UInt8} {hw hw' : Hw} (h : hw.wires = hw'.wires) :
    (dev.stop flags hw).wires = (dev.stop flags hw').wires := by
  simp only [Hw.wires, Prod.mk.injEq] at h
  unfold SpiDevice.stop
  split_ifs <;> simp [Hw.wires, Hw.gpioPut, Hw.gpioSetDir, h]

theorem shiftBytes_lsbFirst (per : Peripheral) {dev : SpiDevice} {mosi miso : Option Nat}
    {byteCount : Nat} (mem : Mem UInt8) (hw : Hw) (hlsb : dev.lsbFirst)
    (hclear : Clear mosi miso byteCount) :
    let src := (data mem mosi byteCount).map bitReverse
    let r := dev.shiftBytes per mosi miso byteCount mem hw
    r.1 = receive mem miso ((answers per hw.sent src).map bitReverse) ∧
      r.2.wires = (hw.exchange per src).wires := by
  intro src r
  have hsrc : wire mem mosi 0 byteCount = src := by
    simp [wire, src]
  have hr : r = _ := (if_pos hlsb).trans
    (lsbLoop_eq per dev mem hw hclear (Nat.zero_add byteCount))
  rw [hsrc] at hr
  refine ⟨by simp [hr], ?_⟩
  rcases Nat.eq_zero_or_pos byteCount with h0 | hpos
  · have hnil : src = [] := List.eq_nil_of_length_eq_zero (by simp [src, h0])
    simp [hr, h0, hnil]
  · rw [hr, if_neg (Nat.ne_of_gt hpos)]
    rfl

theorem data_getElem (mem : Mem UInt8) (mosi : Option Nat) (byteCount : Nat) {i : Nat}
    (h : i < (data mem mosi byteCount).length) :
    (data mem mosi byteCount)[i] = mosi.elim 0 fun p => mem (p + i) := by
  cases mosi with
  | none => simp [data]
  | some p => exact load_getElem mem h

/-- An exchange of the reversed bytes whose answers are reversed leaves what it should. -/
theorem reversed_of_exchange (per : Peripheral) (mosi miso : Option Nat) (byteCount : Nat)
    (mem : Mem UInt8) (hw : Hw) {hw1 hw' : Hw} {mem' : Mem UInt8} (hlog : hw1.log = hw.log)
    (hmem : mem' = receive mem miso
      ((answers per hw1.sent ((data mem mosi byteCount).map bitReverse)).map bitReverse))
    (hlog' : hw'.log = (hw1.exchange per ((data mem mosi byteCount).map bitReverse)).log) :
    Reversed per mosi miso byteCount mem hw (.ok, mem', hw') := by
  set src := (data mem mosi byteCount).map bitReverse with hsrc
  have hlen : src.length = byteCount := by simp [hsrc]
  have hsent : hw1.sent = hw.sent := by simp [Hw.sent, hlog]
  refine ⟨rfl, ⟨hw1.shifts per src, by simp [hlog', Hw.exchange, hlog], by simp [hlen],
    fun i s hs => ?_⟩, fun a ha => ?_⟩
  · obtain ⟨hi, rfl⟩ := List.getElem?_eq_some_iff.1 hs
    have hi' : i < byteCount := by simpa [hlen] using hi
    have htake : ((hw1.shifts per src).take (i + 1)).map (·.mosi) = src.take (i + 1) := by
      rw [List.map_take, map_mosi_shifts]
    have hbyte : src.get ⟨i, by simpa [hlen] using hi'⟩ =
        mosi.elim 0 fun p => bitReverse (mem (p + i)) := by
      rw [List.get_eq_getElem, List.getElem_map, data_getElem]
      cases mosi with
      | none => exact bitReverse_zero
      | some p => rfl
    rw [htake, shifts_getElem]
    refine ⟨hbyte, by rw [hsent], fun q hq => ?_⟩
    obtain rfl : miso = some q := hq
    have hlen' : i < ((answers per hw1.sent src).map bitReverse).length := by simpa [hlen] using hi'
    simp only [hmem, receive]
    rw [store_apply_add hlen', List.getElem_map, answers_getElem]
  · cases miso with
    | none => simp [hmem, receive]
    | some q =>
      simp only [hmem, receive]
      rcases ha q rfl with h1 | h1
      · exact store_apply_of_lt h1
      · exact store_apply_of_ge (by simpa [hlen] using h1)

theorem reversedTransfer_eq (per : Peripheral) (dev : SpiDevice) (mosi miso : Option Nat)
    (byteCount : Nat) (flags : UInt8) (mem : Mem UInt8) (hw : Hw) :
    let src := (data mem mosi byteCount).map bitReverse
    let hw1 := dev.start flags hw
    let hwMode := dev.mode &&& ~~~prSpiDeviceModeLsbFirst
    reversedTransfer per dev mosi miso byteCount flags mem hw =
      (.ok, receive mem miso ((answers per hw1.sent src).map bitReverse),
        dev.stop flags ((hw1.format hwMode dev.bitrate).exchange per src)) := by
  intro src hw1 hwMode
  have hsrc : (mosi.map fun p => (load mem p byteCount).map bitReverse).getD
      (List.replicate byteCount 0) = src := by
    cases mosi <;> simp [src, data]
  have hlen : (answers per hw1.sent src).length = byteCount := by
    simp [src]
  rw [← reverseAt_receive mem miso hlen]
  simp only [reversedTransfer, prSpiMasterTransfer_eq, hsrc]
  rfl

/-- The bits of each byte go out and come in from the lowest one on. This is a plain transfer of the
reversed data, with the result reversed, in chunks that cannot be told from one transfer on the
wires. A transfer may also be in place. -/
theorem lsbFirst_reversed (per : Peripheral) (dev : SpiDevice) (mosi miso : Option Nat)
    (byteCount : Nat) (flags : UInt8) (mem : Mem UInt8) (hw : Hw) (hlsb : dev.lsbFirst)
    (hclear : Clear mosi miso byteCount) :
    let r := prSpiDeviceTransfer per dev mosi miso byteCount flags mem hw
    let plain := reversedTransfer per dev mosi miso byteCount flags mem hw
    Reversed per mosi miso byteCount mem hw r ∧
      r.1 = plain.1 ∧ r.2.1 = plain.2.1 ∧ r.2.2.wires = plain.2.2.wires := by
  intro r plain
  set src := (data mem mosi byteCount).map bitReverse with hsrc
  set hw1 := dev.start flags hw with hhw1
  obtain ⟨hmem, hwires⟩ := shiftBytes_lsbFirst per mem hw1 hlsb hclear
  have hstop : r.2.2.wires = (dev.stop flags (hw1.exchange per src)).wires := stop_wires hwires
  have hlog : r.2.2.log = (hw1.exchange per src).log := by
    rw [← stop_log dev flags (hw1.exchange per src)]
    exact congrArg (·.1) hstop
  have hplain : plain = _ := reversedTransfer_eq per dev mosi miso byteCount flags mem hw
  refine ⟨reversed_of_exchange per mosi miso byteCount mem hw (start_log dev flags hw) hmem hlog,
    rfl, hmem.trans ?_, hstop.trans ?_⟩
  · rw [hplain]
  · rw [hplain]
    exact stop_wires rfl

/-- 2000 bytes in place, to a peripheral that answers each byte with itself. -/
theorem lsbFirst_reversed_inPlace :
    let per : Peripheral := fun sent => sent.getLastD 0
    let dev : SpiDevice := ⟨1000000, prSpiDeviceModeLsbFirst⟩
    let mem : Mem UInt8 := fun a => a.toUInt8
    let hw : Hw := ⟨false, false, 0, [], ⟨false, false⟩, []⟩
    dev.lsbFirst ∧ Clear (some 100) (some 100) 2000 ∧
      Reversed per (some 100) (some 100) 2000 mem hw
        (prSpiDeviceTransfer per dev (some 100) (some 100) 2000 0 mem hw) := by
  intro per dev mem hw
  have hlsb : dev.lsbFirst := by decide
  have hclear : Clear (some 100) (some 100) 2000 := by simp [Clear]
  exact ⟨hlsb, hclear,
    (lsbFirst_reversed per dev (some 100) (some 100) 2000 0 mem hw hlsb hclear).1⟩

end Picore.Spi
