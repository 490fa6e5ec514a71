import Picore.I2c.Bus

/-!
# SPI transfers (`src/spi_master/spi_master.c`)

The bus functions and the devices. The blocking calls of the Pico SDK shift one byte after the
other; each byte that is sent is exchanged for one of the peripheral, which knows the bytes sent so
far. A call of the SDK takes the bytes that it sends before it stores those that it receives in
their place.
-/

namespace Picore.Spi

open Memory
open Picore.I2c (PrError)

/-- A GPIO pin with a pull-up: the value that it drives, and whether it drives it. -/
structure Pin where
  value : Bool
  out : Bool
  deriving DecidableEq

def Pin.level (p : Pin) : Bool := if p.out then p.value else true

/-- A byte on the bus, in both directions, and the level of the chip select meanwhile. -/
structure Shift where
  mosi : UInt8
  miso : UInt8
  csn : Bool
  deriving DecidableEq

/-- The registers of `spi_inst_t` that are set here, the bytes that it has shifted, the chip select
pin, and what has been written to it. -/
structure Hw where
  cpol : Bool
  cpha : Bool
  baudrate : UInt32
  log : List Shift
  csn : Pin
  csnLog : List Pin

/-- What a peripheral answers, from the bytes that have been sent so far. Its answer is exchanged
for the last of them. -/
abbrev Peripheral := List UInt8 → UInt8

/-- The bytes that the controller has shifted out so far, in their order. -/
def Hw.sent (hw : Hw) : List UInt8 := hw.log.map (·.mosi)

/-! ## The Pico SDK -/

/-- `gpio_put` on the chip select. -/
def Hw.gpioPut (hw : Hw) (value : Bool) : Hw :=
  let pin := { hw.csn with value := value }
  { hw with csn := pin, csnLog := hw.csnLog ++ [pin] }

/-- `gpio_set_dir` on the chip select. -/
def Hw.gpioSetDir (hw : Hw) (out : Bool) : Hw :=
  let pin := { hw.csn with out := out }
  { hw with csn := pin, csnLog := hw.csnLog ++ [pin] }

def Hw.shift (hw : Hw) (per : Peripheral) (b : UInt8) : Hw :=
  { hw with log := hw.log ++ [⟨b, per (hw.sent ++ [b]), hw.csn.level⟩] }

/-- `spi_write_read_blocking`: the bytes that are received, and the bus. -/
def spiWriteReadBlocking (per : Peripheral) : List UInt8 → Hw → List UInt8 × Hw
  | [], hw => ([], hw)
  | b :: src, hw =>
    let (dst, hw') := spiWriteReadBlocking per src (hw.shift per b)
    (per (hw.sent ++ [b]) :: dst, hw')

def spiWriteBlocking (per : Peripheral) (src : List UInt8) (hw : Hw) : Hw :=
  (spiWriteReadBlocking per src hw).2

def spiReadBlocking (per : Peripheral) (repeated : UInt8) (len : Nat) (hw : Hw) :
    List UInt8 × Hw :=
  spiWriteReadBlocking per (List.replicate len repeated) hw

/-! ## The bus -/

/-- The loop of `pr_spi_master_transfer` without data and without a buffer: `left` zeros are sent,
16 at a time. -/
def writeZeros (per : Peripheral) (left : Nat) (hw : Hw) : Hw :=
  if left = 0 then hw
  else
    let count := if left > 16 then 16 else left
    writeZeros per (left - count) (spiWriteBlocking per (List.replicate count 0) hw)
termination_by left
decreasing_by
  split
  · omega
  · omega

/-- `pr_spi_master_transfer`. `mosi` has the bytes to send, `miso` is the address of the
destination. -/
def prSpiMasterTransfer (per : Peripheral) (spiMode : UInt8) (bitrate : UInt32)
    (mosi : Option (List UInt8)) (miso : Option Nat) (byteCount : Nat) (mem : Mem UInt8) (hw : Hw) :
    PrError × Mem UInt8 × Hw :=
  let hw := { hw with
    cpol := spiMode &&& 2 ≠ 0
    cpha := spiMode &&& 1 ≠ 0
    baudrate := bitrate }
  match mosi, miso with
  | some src, some dst =>
    let (rdata, hw) := spiWriteReadBlocking per src hw
    (.ok, store mem dst rdata, hw)
  | some src, none => (.ok, mem, spiWriteBlocking per src hw)
  | none, some dst =>
    let (rdata, hw) := spiReadBlocking per 0 byteCount hw
    (.ok, store mem dst rdata, hw)
  | none, none => (.ok, mem, writeZeros per byteCount hw)

/-! ## Devices -/

def prSpiDeviceModeCsnPp : UInt8 := 4

def prSpiDeviceModeLsbFirst : UInt8 := 8

/-- `enum pr_spi_transfer_flags`. -/
def prSpiNoCs : UInt8 := 0
def prSpiKeepCs : UInt8 := 1

/-- `struct pr_spi_device`, without the bus and the number of the chip select pin. -/
structure SpiDevice where
  bitrate : UInt32
  mode : UInt8

def SpiDevice.pushPull (dev : SpiDevice) : Prop := dev.mode &&& prSpiDeviceModeCsnPp ≠ 0

instance (dev : SpiDevice) : Decidable dev.pushPull := inferInstanceAs (Decidable (_ ≠ _))

/-- The bits of a byte go out from the lowest one on. -/
def SpiDevice.lsbFirst (dev : SpiDevice) : Prop := dev.mode &&& prSpiDeviceModeLsbFirst ≠ 0

instance (dev : SpiDevice) : Decidable dev.lsbFirst := inferInstanceAs (Decidable (_ ≠ _))

/-- `pr_spi_device_init`. `gpio_init` makes the pin an input whose value is low. -/
def prSpiDeviceInit (mode : UInt8) (bitrate : UInt32) (hw : Hw) : SpiDevice × Hw :=
  let dev : SpiDevice := ⟨bitrate, mode⟩
  let hw := (hw.gpioSetDir false).gpioPut false
  if dev.pushPull then (dev, (hw.gpioPut true).gpioSetDir true)
  else (dev, (hw.gpioPut false).gpioSetDir false)

set_option maxRecDepth 4000 in
def bitrevTable : Vector UInt8 256 :=
  #v[0x00, 0x80, 0x40, 0xC0, 0x20, 0xA0, 0x60, 0xE0, 0x10, 0x90, 0x50, 0xD0, 0x30, 0xB0, 0x70, 0xF0,
    0x08, 0x88, 0x48, 0xC8, 0x28, 0xA8, 0x68, 0xE8, 0x18, 0x98, 0x58, 0xD8, 0x38, 0xB8, 0x78, 0xF8,
    0x04, 0x84, 0x44, 0xC4, 0x24, 0xA4, 0x64, 0xE4, 0x14, 0x94, 0x54, 0xD4, 0x34, 0xB4, 0x74, 0xF4,
    0x0C, 0x8C, 0x4C, 0xCC, 0x2C, 0xAC, 0x6C, 0xEC, 0x1C, 0x9C, 0x5C, 0xDC, 0x3C, 0xBC, 0x7C, 0xFC,
    0x02, 0x82, 0x42, 0xC2, 0x22, 0xA2, 0x62, 0xE2, 0x12, 0x92, 0x52, 0xD2, 0x32, 0xB2, 0x72, 0xF2,
    0x0A, 0x8A, 0x4A, 0xCA, 0x2A, 0xAA, 0x6A, 0xEA, 0x1A, 0x9A, 0x5A, 0xDA, 0x3A, 0xBA, 0x7A, 0xFA,
    0x06, 0x86, 0x46, 0xC6, 0x26, 0xA6, 0x66, 0xE6, 0x16, 0x96, 0x56, 0xD6, 0x36, 0xB6, 0x76, 0xF6,
    0x0E, 0x8E, 0x4E, 0xCE, 0x2E, 0xAE, 0x6E, 0xEE, 0x1E, 0x9E, 0x5E, 0xDE, 0x3E, 0xBE, 0x7E, 0xFE,
    0x01, 0x81, 0x41, 0xC1, 0x21, 0xA1, 0x61, 0xE1, 0x11, 0x91, 0x51, 0xD1, 0x31, 0xB1, 0x71, 0xF1,
    0x09, 0x89, 0x49, 0xC9, 0x29, 0xA9, 0x69, 0xE9, 0x19, 0x99, 0x59, 0xD9, 0x39, 0xB9, 0x79, 0xF9,
    0x05, 0x85, 0x45, 0xC5, 0x25, 0xA5, 0x65, 0xE5, 0x15, 0x95, 0x55, 0xD5, 0x35, 0xB5, 0x75, 0xF5,
    0x0D, 0x8D, 0x4D, 0xCD, 0x2D, 0xAD, 0x6D, 0xED, 0x1D, 0x9D, 0x5D, 0xDD, 0x3D, 0xBD, 0x7D, 0xFD,
    0x03, 0x83, 0x43, 0xC3, 0x23, 0xA3, 0x63, 0xE3, 0x13, 0x93, 0x53, 0xD3, 0x33, 0xB3, 0x73, 0xF3,
    0x0B, 0x8B, 0x4B, 0xCB, 0x2B, 0xAB, 0x6B, 0xEB, 0x1B, 0x9B, 0x5B, 0xDB, 0x3B, 0xBB, 0x7B, 0xFB,
    0x07, 0x87, 0x47, 0xC7, 0x27, 0xA7, 0x67, 0xE7, 0x17, 0x97, 0x57, 0xD7, 0x37, 0xB7, 0x77, 0xF7,
    0x0F, 0x8F, 0x4F, 0xCF, 0x2F, 0xAF, 0x6F, 0xEF, 0x1F, 0x9F, 0x5F, 0xDF, 0x3F, 0xBF, 0x7F, 0xFF]

def bitrev (b : UInt8) : UInt8 := bitrevTable.get ⟨b.toNat, b.toNat_lt⟩

def bitrevBuf (mem : Mem UInt8) (buf len : Nat) : Mem UInt8 :=
  (List.range len).foldl (fun mem i => store mem (buf + i) [bitrev (mem (buf + i))]) mem

def bitrevChunkSize : Nat := 1600

/-- The `while` loop of `pr_spi_device_transfer`. The bytes of a chunk are reversed on their way to
`tx_chunk`. -/
def lsbLoop (per : Peripheral) (dev : SpiDevice) (mosi miso : Option Nat) (byteCount offset : Nat)
    (mem : Mem UInt8) (hw : Hw) : Mem UInt8 × Hw :=
  if offset < byteCount then
    let chunk := byteCount - offset
    let chunk := if chunk > bitrevChunkSize then bitrevChunkSize else chunk
    let hwMode := dev.mode &&& ~~~prSpiDeviceModeLsbFirst
    let rx := miso.map (· + offset)
    let tx := mosi.map fun p => (load mem (p + offset) chunk).map bitrev
    let (_, mem, hw) := prSpiMasterTransfer per hwMode dev.bitrate tx rx chunk mem hw
    let mem := match rx with
      | some p => bitrevBuf mem p chunk
      | none => mem
    lsbLoop per dev mosi miso byteCount (offset + chunk) mem hw
  else (mem, hw)
termination_by byteCount - offset
decreasing_by
  rw [bitrevChunkSize]
  split
  · omega
  · omega

/-- The chip select before the bytes: asserted, unless `PR_SPI_NO_CS` is set in the flags. -/
def SpiDevice.start (dev : SpiDevice) (flags : UInt8) (hw : Hw) : Hw :=
  if flags &&& prSpiNoCs = 0 then
    if dev.pushPull then hw.gpioPut false else hw.gpioSetDir true
  else hw

/-- The chip select after the bytes: released, unless one of the two flags is set. -/
def SpiDevice.stop (dev : SpiDevice) (flags : UInt8) (hw : Hw) : Hw :=
  if flags &&& (prSpiNoCs ||| prSpiKeepCs) = 0 then
    if dev.pushPull then hw.gpioPut true else hw.gpioSetDir false
  else hw

/-- The bytes of `pr_spi_device_transfer`, in either order of their bits. -/
def SpiDevice.shiftBytes (per : Peripheral) (dev : SpiDevice) (mosi miso : Option Nat)
    (byteCount : Nat) (mem : Mem UInt8) (hw : Hw) : Mem UInt8 × Hw :=
  if dev.lsbFirst then lsbLoop per dev mosi miso byteCount 0 mem hw
  else (prSpiMasterTransfer per dev.mode dev.bitrate (mosi.map fun p => load mem p byteCount) miso
    byteCount mem hw).2

/-- `pr_spi_device_transfer`. `mosi` and `miso` are addresses. -/
def prSpiDeviceTransfer (per : Peripheral) (dev : SpiDevice) (mosi miso : Option Nat)
    (byteCount : Nat) (flags : UInt8) (mem : Mem UInt8) (hw : Hw) : PrError × Mem UInt8 × Hw :=
  let hw := dev.start flags hw
  let (mem, hw) := dev.shiftBytes per mosi miso byteCount mem hw
  (.ok, mem, dev.stop flags hw)

/-! ## What one transfer exchanges -/

/-- What a device sends back for the bytes `src`, one for each, when it has been sent `sent` before.
-/
def answers (per : Peripheral) (sent : List UInt8) : List UInt8 → List UInt8
  | [] => []
  | b :: src => per (sent ++ [b]) :: answers per (sent ++ [b]) src

/-- The bytes `src` and the answers to them, while the chip select stays as it is. -/
def Hw.shifts (per : Peripheral) (hw : Hw) (src : List UInt8) : List Shift :=
  List.zipWith (fun b a => ⟨b, a, hw.csn.level⟩) src (answers per hw.sent src)

def Hw.exchange (per : Peripheral) (hw : Hw) (src : List UInt8) : Hw :=
  { hw with log := hw.log ++ hw.shifts per src }

/-- The registers that `pr_spi_master_transfer` sets. -/
def Hw.format (hw : Hw) (spiMode : UInt8) (bitrate : UInt32) : Hw :=
  { hw with
    cpol := spiMode &&& 2 ≠ 0
    cpha := spiMode &&& 1 ≠ 0
    baudrate := bitrate }

/-- `miso` has the bytes `rdata`, when it is not `NULL`. -/
def receive (mem : Mem UInt8) (miso : Option Nat) (rdata : List UInt8) : Mem UInt8 :=
  match miso with
  | some dst => store mem dst rdata
  | none => mem

@[simp] theorem length_answers (per : Peripheral) (sent src : List UInt8) :
    (answers per sent src).length = src.length := by
  induction src generalizing sent with
  | nil => rfl
  | cons b src ih => simp [answers, ih]

theorem answers_append (per : Peripheral) (sent xs ys : List UInt8) :
    answers per sent (xs ++ ys) = answers per sent xs ++ answers per (sent ++ xs) ys := by
  induction xs generalizing sent with
  | nil => simp [answers]
  | cons b xs ih => simp [answers, ih]

theorem answers_getElem (per : Peripheral) (sent src : List UInt8) {i : Nat}
    (h : i < (answers per sent src).length) :
    (answers per sent src)[i] = per (sent ++ src.take (i + 1)) := by
  induction src generalizing sent i with
  | nil => simp [answers] at h
  | cons b src ih =>
    cases i with
    | zero => simp [answers]
    | succ i => simp [answers, ih]

@[simp] theorem length_shifts (per : Peripheral) (hw : Hw) (src : List UInt8) :
    (hw.shifts per src).length = src.length := by
  simp [Hw.shifts]

theorem shifts_getElem (per : Peripheral) (hw : Hw) (src : List UInt8) {i : Nat}
    (h : i < (hw.shifts per src).length) :
    (hw.shifts per src)[i] = ⟨src.get ⟨i, by simpa using h⟩, per (hw.sent ++ src.take (i + 1)),
      hw.csn.level⟩ := by
  simp [Hw.shifts, answers_getElem]

@[simp] theorem map_mosi_shifts (per : Peripheral) (hw : Hw) (src : List UInt8) :
    (hw.shifts per src).map (·.mosi) = src :=
  List.ext_getElem (by simp) fun i h1 h2 => by simp [shifts_getElem]

@[simp] theorem sent_shift (per : Peripheral) (hw : Hw) (b : UInt8) :
    (hw.shift per b).sent = hw.sent ++ [b] := by
  simp [Hw.shift, Hw.sent]

@[simp] theorem sent_exchange (per : Peripheral) (hw : Hw) (src : List UInt8) :
    (hw.exchange per src).sent = hw.sent ++ src := by
  simp [Hw.exchange, Hw.sent]

@[simp] theorem sent_format (hw : Hw) (spiMode : UInt8) (bitrate : UInt32) :
    (hw.format spiMode bitrate).sent = hw.sent := rfl

@[simp] theorem exchange_nil (per : Peripheral) (hw : Hw) : hw.exchange per [] = hw := by
  simp [Hw.exchange, Hw.shifts]

theorem exchange_cons (per : Peripheral) (hw : Hw) (b : UInt8) (src : List UInt8) :
    hw.exchange per (b :: src) = (hw.shift per b).exchange per src := by
  simp [Hw.exchange, Hw.shifts, answers, Hw.shift, Hw.sent]

theorem exchange_append (per : Peripheral) (hw : Hw) (xs ys : List UInt8) :
    hw.exchange per (xs ++ ys) = (hw.exchange per xs).exchange per ys := by
  induction xs generalizing hw with
  | nil => simp
  | cons b xs ih => simp [exchange_cons, ih]

@[simp] theorem format_exchange (per : Peripheral) (hw : Hw) (spiMode : UInt8) (bitrate : UInt32)
    (src : List UInt8) :
    (hw.exchange per src).format spiMode bitrate =
      (hw.format spiMode bitrate).exchange per src := rfl

@[simp] theorem format_format (hw : Hw) (spiMode : UInt8) (bitrate : UInt32) :
    (hw.format spiMode bitrate).format spiMode bitrate = hw.format spiMode bitrate := rfl

theorem spiWriteReadBlocking_eq (per : Peripheral) (src : List UInt8) (hw : Hw) :
    spiWriteReadBlocking per src hw = (answers per hw.sent src, hw.exchange per src) := by
  induction src generalizing hw with
  | nil => simp [spiWriteReadBlocking, answers]
  | cons b src ih => simp [spiWriteReadBlocking, ih, answers, exchange_cons]

theorem writeZeros_eq (per : Peripheral) (left : Nat) (hw : Hw) :
    writeZeros per left hw = hw.exchange per (List.replicate left 0) := by
  fun_induction writeZeros per left hw with
  | case1 => simp
  | case2 left hw h count ih =>
    have h1 : count + (left - count) = left := by grind
    rw [ih, spiWriteBlocking, spiWriteReadBlocking_eq, ← exchange_append,
      List.replicate_append_replicate, h1]

/-- A transfer on the bus exchanges the bytes of `mosi`, or zeros. -/
theorem prSpiMasterTransfer_eq (per : Peripheral) (spiMode : UInt8) (bitrate : UInt32)
    (mosi : Option (List UInt8)) (miso : Option Nat) (byteCount : Nat) (mem : Mem UInt8) (hw : Hw) :
    let src := mosi.getD (List.replicate byteCount 0)
    prSpiMasterTransfer per spiMode bitrate mosi miso byteCount mem hw =
      (.ok, receive mem miso (answers per hw.sent src),
        (hw.format spiMode bitrate).exchange per src) := by
  cases mosi <;> cases miso <;>
    simp [prSpiMasterTransfer, receive, spiWriteReadBlocking_eq, spiReadBlocking, spiWriteBlocking,
      writeZeros_eq, Hw.format, Hw.sent]

end Picore.Spi
