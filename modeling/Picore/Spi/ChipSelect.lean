import Picore.Spi.BitOrder

/-!
# The chip select over sequences of transfers

The header has three kinds of transfers: those that assert the chip select and release it, those
that keep it asserted, and those that leave it alone. The third kind has no flag of its own:
`PR_SPI_NO_CS` is the first enumerator, and zero.

Results:
1. `shiftBytes_shifted`: the chip select is the same for all bytes of a transfer.
2. `run_plain`, `run_keepCs`: transfers of the first two kinds do what they should.
   `run_noCs`: one of the third kind is one of the first.
3. `discipline_iff`: a sequence of transfers does what the header says exactly when none of them is
   of the third kind.
-/

namespace Picore.Spi

open Memory
open Picore.I2c (PrError)

/-- The kinds of transfers that the header has: the chip select is released behind the transfer,
kept for the next one, or left to the caller. -/
inductive Kind
  | plain
  | keepCs
  | noCs
  deriving DecidableEq

/-- The flags argument for each kind, by the enumerators of the header. The enumerator of the third
kind is zero. -/
def Kind.flags : Kind → UInt8
  | .plain => 0
  | .keepCs => prSpiKeepCs
  | .noCs => prSpiNoCs

/-- The arguments of `pr_spi_device_transfer`. The two buffers are addresses in one memory, or
`NULL`, and may be the same. -/
structure Call where
  mosi : Option Nat
  miso : Option Nat
  byteCount : Nat
  kind : Kind

def Call.run (per : Peripheral) (dev : SpiDevice) (c : Call) (mem : Mem UInt8) (hw : Hw) :
    Mem UInt8 × Hw :=
  (prSpiDeviceTransfer per dev c.mosi c.miso c.byteCount c.kind.flags mem hw).2

/-- What the header says of one transfer. `kept` tells that the chip select has been kept asserted
since an earlier one. -/
structure Call.Allowed (c : Call) (kept : Bool) (hw : Hw) (shifts : List Shift) (pins : List Pin)
    (hw' : Hw) : Prop where
  log : hw'.log = hw.log ++ shifts
  csnLog : hw'.csnLog = hw.csnLog ++ pins
  noCs : c.kind = .noCs → hw'.csn = hw.csn ∧ ∀ pin ∈ pins, pin = hw.csn
  asserted : c.kind ≠ .noCs → ∀ s ∈ shifts, s.csn = false
  released : c.kind = .plain → hw'.csn.level = true
  keeps : c.kind = .keepCs → hw'.csn.level = false
  /-- Only the end of a plain transfer releases it. -/
  stays : kept = true → ∀ pin ∈ if c.kind = .plain then pins.dropLast else pins, pin.level = false

def Call.kept (c : Call) (kept : Bool) : Bool :=
  match c.kind with
  | .plain => false
  | .keepCs => true
  | .noCs => kept

/-- What the header says of a sequence of transfers. -/
def Discipline (per : Peripheral) (dev : SpiDevice) :
    List Call → Bool → Mem UInt8 → Hw → Prop
  | [], _, _, _ => True
  | c :: calls, kept, mem, hw =>
    let r := c.run per dev mem hw
    (∃ shifts pins, c.Allowed kept hw shifts pins r.2) ∧
      Discipline per dev calls (c.kept kept) r.1 r.2

/-- The flags tell the kinds in a sequence apart. -/
def Distinguishable (calls : List Call) : Prop :=
  ∀ c ∈ calls, ∀ d ∈ calls, c.kind.flags = d.kind.flags → c.kind = d.kind

/-! ## 1. The bytes of a transfer -/

/-- Bytes have been shifted, all of them with the chip select as it was, and it is as it was. -/
structure Shifted (hw hw' : Hw) : Prop where
  csn : hw'.csn = hw.csn
  csnLog : hw'.csnLog = hw.csnLog
  log : ∃ shifts, hw'.log = hw.log ++ shifts ∧ ∀ s ∈ shifts, s.csn = hw.csn.level

theorem Shifted.refl (hw : Hw) : Shifted hw hw := ⟨rfl, rfl, [], by simp⟩

theorem Shifted.trans {hw hw' hw'' : Hw} (h : Shifted hw hw') (h' : Shifted hw' hw'') :
    Shifted hw hw'' := by
  obtain ⟨xs, hxs, hx⟩ := h.log
  obtain ⟨ys, hys, hy⟩ := h'.log
  refine ⟨h'.csn.trans h.csn, h'.csnLog.trans h.csnLog, xs ++ ys, by simp [hys, hxs], ?_⟩
  intro s hs
  rcases List.mem_append.1 hs with hs | hs
  · exact hx s hs
  · rw [hy s hs, h.csn]

theorem exchange_shifted (per : Peripheral) (hw : Hw) (spiMode : UInt8) (bitrate : UInt32)
    (src : List UInt8) : Shifted hw ((hw.format spiMode bitrate).exchange per src) := by
  refine ⟨rfl, rfl, (hw.format spiMode bitrate).shifts per src, rfl, fun s hs => ?_⟩
  obtain ⟨i, hi, rfl⟩ := List.getElem_of_mem hs
  rw [shifts_getElem]
  rfl

theorem lsbLoop_shifted (per : Peripheral) (dev : SpiDevice) (mosi miso : Option Nat)
    (byteCount offset : Nat) (mem : Mem UInt8) (hw : Hw) :
    Shifted hw (lsbLoop per dev mosi miso byteCount offset mem hw).2 := by
  induction hn : byteCount - offset using Nat.strongRecOn generalizing offset mem hw with
  | ind n ih =>
  rcases Nat.lt_or_ge offset byteCount with hlt | hge
  · have hpos : 0 < chunkLen byteCount offset := by
      rw [chunkLen, bitrevChunkSize]
      omega
    rw [lsbLoop_chunk per dev mosi miso mem hw hlt]
    exact (exchange_shifted ..).trans (ih _ (by omega) _ _ _ rfl)
  · rw [lsbLoop, if_neg (Nat.not_lt.2 hge)]
    exact .refl hw

/-- The chip select is the same for all bytes. -/
theorem shiftBytes_shifted (per : Peripheral) (dev : SpiDevice) (mosi miso : Option Nat)
    (byteCount : Nat) (mem : Mem UInt8) (hw : Hw) :
    Shifted hw (dev.shiftBytes per mosi miso byteCount mem hw).2 := by
  unfold SpiDevice.shiftBytes
  split_ifs
  · exact lsbLoop_shifted ..
  · rw [prSpiMasterTransfer_eq]
    exact exchange_shifted ..

/-! ## 2. One transfer -/

/-- The chip select is configured: as an output for push-pull, with a low value for open-drain. -/
def SpiDevice.Configured (dev : SpiDevice) (hw : Hw) : Prop :=
  if dev.pushPull then hw.csn.out = true else hw.csn.value = false

theorem init_configured (mode : UInt8) (bitrate : UInt32) (hw : Hw) :
    (prSpiDeviceInit mode bitrate hw).1.Configured (prSpiDeviceInit mode bitrate hw).2 := by
  simp only [prSpiDeviceInit]
  split_ifs with h <;> simp [SpiDevice.Configured, h, Hw.gpioPut, Hw.gpioSetDir]

def SpiDevice.low (dev : SpiDevice) (pin : Pin) : Pin :=
  if dev.pushPull then { pin with value := false } else { pin with out := true }

def SpiDevice.high (dev : SpiDevice) (pin : Pin) : Pin :=
  if dev.pushPull then { pin with value := true } else { pin with out := false }

/-- Every transfer asserts the chip select before its first byte, whatever its flags, since
`PR_SPI_NO_CS` is zero. -/
theorem start_eq (dev : SpiDevice) (flags : UInt8) (hw : Hw) :
    dev.start flags hw =
      { hw with csn := dev.low hw.csn, csnLog := hw.csnLog ++ [dev.low hw.csn] } := by
  have h0 : flags &&& prSpiNoCs = 0 := UInt8.and_zero
  rw [SpiDevice.start, if_pos h0, SpiDevice.low]
  split_ifs <;> rfl

theorem stop_zero (dev : SpiDevice) (hw : Hw) :
    dev.stop 0 hw =
      { hw with csn := dev.high hw.csn, csnLog := hw.csnLog ++ [dev.high hw.csn] } := by
  rw [SpiDevice.stop, if_pos (by decide), SpiDevice.high]
  split_ifs <;> rfl

theorem stop_keepCs (dev : SpiDevice) (hw : Hw) : dev.stop prSpiKeepCs hw = hw :=
  if_neg (by decide)

theorem low_level {dev : SpiDevice} {hw : Hw} (h : dev.Configured hw) :
    (dev.low hw.csn).level = false := by
  unfold SpiDevice.Configured at h
  unfold SpiDevice.low
  split_ifs at h ⊢ <;> simp [Pin.level, h]

theorem high_level (dev : SpiDevice) (pin : Pin) : (dev.high (dev.low pin)).level = true := by
  unfold SpiDevice.high SpiDevice.low
  split_ifs <;> simp [Pin.level]

theorem high_ne_low (dev : SpiDevice) (pin : Pin) : dev.high (dev.low pin) ≠ dev.low pin := by
  unfold SpiDevice.high SpiDevice.low
  split_ifs <;> simp

theorem configured_low {dev : SpiDevice} {hw hw' : Hw} (h : dev.Configured hw)
    (hcsn : hw'.csn = dev.low hw.csn) : dev.Configured hw' := by
  unfold SpiDevice.Configured at h ⊢
  rw [hcsn]
  unfold SpiDevice.low
  split_ifs at h ⊢ <;> simp [h]

theorem configured_high {dev : SpiDevice} {hw hw' : Hw} (h : dev.Configured hw)
    (hcsn : hw'.csn = dev.high (dev.low hw.csn)) : dev.Configured hw' := by
  unfold SpiDevice.Configured at h ⊢
  rw [hcsn]
  unfold SpiDevice.high SpiDevice.low
  split_ifs at h ⊢ <;> simp [h]

section Run

variable (per : Peripheral) {dev : SpiDevice} {c : Call} {kept : Bool} (mem : Mem UInt8) {hw : Hw}

/-- The bytes of a call go out with the chip select low. -/
theorem run_shifted (dev : SpiDevice) (c : Call) (hw : Hw) :
    ∃ mid, (c.run per dev mem hw).2 = dev.stop c.kind.flags mid ∧
      mid.csn = dev.low hw.csn ∧ mid.csnLog = hw.csnLog ++ [dev.low hw.csn] ∧
      ∃ shifts, mid.log = hw.log ++ shifts ∧ ∀ s ∈ shifts, s.csn = (dev.low hw.csn).level := by
  have h := shiftBytes_shifted per dev c.mosi c.miso c.byteCount mem (dev.start c.kind.flags hw)
  obtain ⟨shifts, hlog, hs⟩ := h.log
  refine ⟨_, rfl, h.csn.trans (by rw [start_eq]), h.csnLog.trans (by rw [start_eq]), shifts,
    hlog.trans (by rw [start_eq]), fun s hmem => ?_⟩
  rw [hs s hmem, start_eq]

theorem run_released (dev : SpiDevice) (hw : Hw) (hflags : c.kind.flags = 0) :
    (c.run per dev mem hw).2.csn = dev.high (dev.low hw.csn) ∧
      (c.run per dev mem hw).2.csnLog =
        hw.csnLog ++ [dev.low hw.csn, dev.high (dev.low hw.csn)] ∧
      ∃ shifts, (c.run per dev mem hw).2.log = hw.log ++ shifts ∧
        ∀ s ∈ shifts, s.csn = (dev.low hw.csn).level := by
  obtain ⟨mid, hrun, hcsn, hcsnLog, hlog⟩ := run_shifted per mem dev c hw
  rw [hrun, hflags, stop_zero]
  exact ⟨by simp [hcsn], by simp [hcsn, hcsnLog], hlog⟩

theorem run_kept (dev : SpiDevice) (hw : Hw) (hkind : c.kind = .keepCs) :
    (c.run per dev mem hw).2.csn = dev.low hw.csn ∧
      (c.run per dev mem hw).2.csnLog = hw.csnLog ++ [dev.low hw.csn] ∧
      ∃ shifts, (c.run per dev mem hw).2.log = hw.log ++ shifts ∧
        ∀ s ∈ shifts, s.csn = (dev.low hw.csn).level := by
  obtain ⟨mid, hrun, hcsn, hcsnLog, hlog⟩ := run_shifted per mem dev c hw
  rw [hrun, hkind, Kind.flags, stop_keepCs]
  exact ⟨hcsn, hcsnLog, hlog⟩

theorem run_configured (h : dev.Configured hw) : dev.Configured (c.run per dev mem hw).2 := by
  cases hkind : c.kind with
  | plain => exact configured_high h (run_released per mem dev hw (by rw [hkind]; rfl)).1
  | keepCs => exact configured_low h (run_kept per mem dev hw hkind).1
  | noCs => exact configured_high h (run_released per mem dev hw (by rw [hkind]; rfl)).1

theorem run_plain (h : dev.Configured hw) (hkind : c.kind = .plain) :
    ∃ shifts pins, c.Allowed kept hw shifts pins (c.run per dev mem hw).2 := by
  have hflags : c.kind.flags = 0 := by rw [hkind]; rfl
  obtain ⟨hcsn, hcsnLog, shifts, hlog, hs⟩ := run_released per mem dev hw hflags
  refine ⟨shifts, _, hlog, hcsnLog, by simp [hkind], fun _ s hmem => ?_, fun _ => ?_,
    by simp [hkind], fun _ => ?_⟩
  · rw [hs s hmem, low_level h]
  · rw [hcsn, high_level]
  · simp [hkind, low_level h]

theorem run_keepCs (h : dev.Configured hw) (hkind : c.kind = .keepCs) :
    ∃ shifts pins, c.Allowed kept hw shifts pins (c.run per dev mem hw).2 := by
  obtain ⟨hcsn, hcsnLog, shifts, hlog, hs⟩ := run_kept per mem dev hw hkind
  refine ⟨shifts, _, hlog, hcsnLog, by simp [hkind], fun _ s hmem => ?_, by simp [hkind],
    fun _ => ?_, fun _ => ?_⟩
  · rw [hs s hmem, low_level h]
  · rw [hcsn, low_level h]
  · simp [hkind, low_level h]

/-- A transfer that is to leave the chip select alone asserts and releases it, like one without a
flag. -/
theorem run_noCs (hkind : c.kind = .noCs) {shifts : List Shift} {pins : List Pin} :
    ¬ c.Allowed kept hw shifts pins (c.run per dev mem hw).2 := by
  intro hallowed
  have hflags : c.kind.flags = 0 := by rw [hkind]; rfl
  obtain ⟨-, hcsnLog, -⟩ := run_released per mem dev hw hflags
  obtain rfl : pins = [dev.low hw.csn, dev.high (dev.low hw.csn)] :=
    List.append_cancel_left (hallowed.csnLog.symm.trans hcsnLog)
  have hsame := (hallowed.noCs hkind).2
  have hlow : dev.low hw.csn = hw.csn := hsame _ (by simp)
  have hhigh : dev.high (dev.low hw.csn) = hw.csn := hsame _ (by simp)
  exact high_ne_low dev hw.csn (hhigh.trans hlow.symm)

end Run

/-! ## 3. Sequences -/

/-- A sequence without a transfer of the third kind is what the header says. -/
theorem discipline_of_no_noCs (per : Peripheral) {dev : SpiDevice} {calls : List Call}
    (hcalls : ∀ c ∈ calls, c.kind ≠ .noCs) {kept : Bool} {mem : Mem UInt8} {hw : Hw}
    (h : dev.Configured hw) : Discipline per dev calls kept mem hw := by
  induction calls generalizing kept mem hw with
  | nil => trivial
  | cons c calls ih =>
    refine ⟨?_, ih (fun d hd => hcalls d (List.mem_cons_of_mem c hd)) (run_configured per mem h)⟩
    cases hkind : c.kind with
    | plain => exact run_plain per mem h hkind
    | keepCs => exact run_keepCs per mem h hkind
    | noCs => exact absurd hkind (hcalls c List.mem_cons_self)

theorem no_noCs_of_discipline {per : Peripheral} {dev : SpiDevice} {calls : List Call}
    {kept : Bool} {mem : Mem UInt8} {hw : Hw} (h : Discipline per dev calls kept mem hw) :
    ∀ c ∈ calls, c.kind ≠ .noCs := by
  induction calls generalizing kept mem hw with
  | nil => simp
  | cons c calls ih =>
    obtain ⟨⟨shifts, pins, hallowed⟩, hrest⟩ := h
    refine List.forall_mem_cons.2 ⟨fun hkind => run_noCs per mem hkind hallowed, ih hrest⟩

/-- The kinds of transfers other than the one that leaves the chip select alone have flags that tell
them apart. -/
theorem flags_injective (k l : Kind) :
    k ≠ .noCs → l ≠ .noCs → k.flags = l.flags → k = l := by
  cases k <;> cases l <;> decide

theorem distinguishable_of_no_noCs {calls : List Call} (hcalls : ∀ c ∈ calls, c.kind ≠ .noCs) :
    Distinguishable calls :=
  fun c hc d hd => flags_injective c.kind d.kind (hcalls c hc) (hcalls d hd)

/-- After `pr_spi_device_init`, transfers do what the header says exactly when none of them is
flagged `PR_SPI_NO_CS`. The flag is the enumerator 0, so no test of the code finds it set. -/
theorem discipline_iff (per : Peripheral) (mode : UInt8) (bitrate : UInt32) (hw0 : Hw)
    (mem : Mem UInt8) (calls : List Call) :
    let (dev, hw) := prSpiDeviceInit mode bitrate hw0
    Discipline per dev calls false mem hw ∧ Distinguishable calls ↔
      ∀ c ∈ calls, c.kind ≠ .noCs := by
  constructor
  · exact fun h => no_noCs_of_discipline h.1
  · exact fun h => ⟨discipline_of_no_noCs per h (init_configured mode bitrate hw0),
      distinguishable_of_no_noCs h⟩

/-- One byte goes to a device with a push-pull chip select that is to be left alone, and the chip
select is asserted and released. -/
theorem noCs_not_disciplined :
    let hw0 : Hw := ⟨false, false, 0, [], ⟨false, false⟩, []⟩
    let (dev, hw) := prSpiDeviceInit prSpiDeviceModeCsnPp 1000000 hw0
    ¬ Discipline (fun _ => 0) dev [⟨none, none, 1, .noCs⟩] false (fun _ => 0) hw := by
  intro hw0
  exact fun h => no_noCs_of_discipline h _ List.mem_cons_self rfl

end Picore.Spi
