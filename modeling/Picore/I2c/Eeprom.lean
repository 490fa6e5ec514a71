import Picore.I2c.Bus
import Picore.Lib.Fuel

/-!
# The EEPROM drivers (`src/i2c_eeprom/eeprom.c`)

Two drivers that differ in the geometry of their chip, in the loop that waits
for the chip at the end of a write, and in what a write returns. The geometry is
a `Part`; the loop over the chunks of a write is shared.

`size_t` has 32 bits and `offset` has 16 bits on the target, so the range check
and the advance of `offset` are modulo `2 ^ 32` and `2 ^ 16`. `saddr` and `buf`
are local variables of the write functions without an initial value, so their
values on entry are parameters.
-/

namespace Picore.I2c

open Memory Fuel

variable {σ : Type}

/-- The geometry of a chip: what the drivers take from their `#define`s and how
they form the slave address and the address bytes of a memory address. -/
structure Part where
  size : Nat
  addrSize : Nat
  pageSize : Nat
  slave : UInt8 → Nat → UInt8
  header : Nat → List UInt8

/-- `EEPROM_24LC08_*`. Bits 8 and 9 of the memory address go to the slave
address. -/
def part24lc08 : Part where
  size := 256 * 4
  addrSize := 1
  pageSize := 16
  slave saddr a := saddr ||| UInt8.ofNat ((a >>> 8) &&& 3)
  header a := [UInt8.ofNat (a &&& 0xff)]

/-- `EEPROM_24AA64_*`. -/
def part24aa64 : Part where
  size := 1 <<< 13
  addrSize := 2
  pageSize := 32
  slave saddr _ := saddr
  header a := [UInt8.ofNat ((a >>> 8) &&& 0x1f), UInt8.ofNat (a &&& 0xff)]

/-- The range check that all four functions start with. -/
def outOfRange (p : Part) (addr size : Nat) : Bool :=
  decide (p.size < addr) || decide (p.size < (addr + size) % 2 ^ 32)

def eepromRead (p : Part) (inst : I2cInst σ) (s : σ) (saddr : UInt8) (addr size : Nat) :
    PrError × List UInt8 × σ :=
  if outOfRange p addr size then (.inval, [], s)
  else prI2cBusWriteRead inst s (p.slave saddr addr) (p.header addr) size

/-- `chuck_size` for the bytes from `offset` on. -/
def chuckSize (p : Part) (addr size offset : Nat) : Nat :=
  let chuck := if addr % p.pageSize ≠ 0 then p.pageSize - addr % p.pageSize else 16
  if chuck > size - offset then size - offset else chuck

/-- A transaction attempted until it succeeds or `retry_count`, decremented
before each attempt, is zero. The value on entry is positive. -/
def retry {α : Type} (attempt : α → PrError × α) : Nat → α → PrError × α
  | 0, s => (.ok, s)
  | n + 1, s =>
    let (err, s) := attempt s
    if err = .ok ∨ n = 0 then (err, s) else retry attempt n s

/-- The bus and the local variables of a write, which its loops carry from chunk to chunk. -/
structure WriteState (σ : Type) where
  bus : σ
  offset : Nat
  saddr : UInt8
  buf : Mem UInt8

/-- One turn of the `while` loop of a write: the chunk at `offset` is sent, with
up to 128 attempts. -/
def writeChunk (p : Part) (inst : I2cInst σ) (saddr : UInt8) (addr : Nat) (data : List UInt8)
    (size : Nat) (st : WriteState σ) : PrError × WriteState σ :=
  let chuck := chuckSize p addr size st.offset
  let slave := p.slave saddr (addr + st.offset)
  let buf := store st.buf 0 (p.header (addr + st.offset))
  let buf := store buf p.addrSize ((data.drop st.offset).take chuck)
  let (err, bus) :=
    retry (fun s => prI2cBusWrite inst s slave (load buf 0 (chuck + p.addrSize))) 128 st.bus
  if err ≠ .ok then (err, { bus := bus, offset := st.offset, saddr := slave, buf := buf })
  else (.ok, { bus := bus, offset := (st.offset + chuck) % 2 ^ 16, saddr := slave, buf := buf })

/-- The `while` loop of a write. It ends early with the error of a chunk. -/
def writeLoop (p : Part) (inst : I2cInst σ) (saddr : UInt8) (addr : Nat) (data : List UInt8)
    (size : Nat) : Nat → WriteState σ → Outcome Empty (PrError × WriteState σ)
  | 0, _ => .error .timeout
  | fuel + 1, st =>
    if st.offset < size then
      let (err, st) := writeChunk p inst saddr addr data size st
      if err ≠ .ok then .ok (err, st) else writeLoop p inst saddr addr data size fuel st
    else .ok (.ok, st)

/-- The final wait of a write: a one-byte read into `buf + 1`, with up to 128
attempts. -/
def pollReady (p : Part) (inst : I2cInst σ) (st : WriteState σ) : PrError × WriteState σ :=
  retry (fun st =>
    let (err, rdata, bus) := prI2cBusWriteRead inst st.bus st.saddr (load st.buf 0 p.addrSize) 1
    (err, { st with bus := bus, buf := store st.buf 1 rdata })) 128 st

def pollOnce (p : Part) (inst : I2cInst σ) (st : WriteState σ) : PrError × WriteState σ :=
  let (err, rdata, bus) := prI2cBusWriteRead inst st.bus st.saddr (load st.buf 0 p.addrSize) 1
  (err, { st with bus := bus, buf := store st.buf 1 rdata })

theorem pollReady_eq (p : Part) (inst : I2cInst σ) (st : WriteState σ) :
    pollReady p inst st = retry (pollOnce p inst) 128 st :=
  rfl

def eeprom24lc08Read (inst : I2cInst σ) (s : σ) (saddr : UInt8) (addr size : Nat) :
    PrError × List UInt8 × σ :=
  eepromRead part24lc08 inst s saddr addr size

def eeprom24aa64Read (inst : I2cInst σ) (s : σ) (saddr : UInt8) (addr size : Nat) :
    PrError × List UInt8 × σ :=
  eepromRead part24aa64 inst s saddr addr size

/-- `eeprom_24lc08_write`. The result of the final wait is dropped. -/
def eeprom24lc08Write (inst : I2cInst σ) (s : σ) (saddr : UInt8) (addr : Nat) (data : List UInt8)
    (size : Nat) (saddr0 : UInt8) (buf0 : Mem UInt8) (fuel : Nat) : Outcome Empty (PrError × σ) :=
  if outOfRange part24lc08 addr size then .ok (.inval, s)
  else do
    let (err, st) ← writeLoop part24lc08 inst saddr addr data size fuel ⟨s, 0, saddr0, buf0⟩
    if err ≠ .ok then .ok (err, st.bus)
    else
      let (_, st) := pollReady part24lc08 inst st
      .ok (.ok, st.bus)

def eeprom24aa64Write (inst : I2cInst σ) (s : σ) (saddr : UInt8) (addr : Nat) (data : List UInt8)
    (size : Nat) (saddr0 : UInt8) (buf0 : Mem UInt8) (fuel : Nat) : Outcome Empty (PrError × σ) :=
  if outOfRange part24aa64 addr size then .ok (.inval, s)
  else do
    let (err, st) ← writeLoop part24aa64 inst saddr addr data size fuel ⟨s, 0, saddr0, buf0⟩
    if err ≠ .ok then .ok (err, st.bus)
    else
      let (err, st) := pollReady part24aa64 inst st
      .ok (err, st.bus)

/-- `enum pr_i2c_eeprom_type`. The two types have a driver each, and differ in the page size, the
width of the address and what a write returns. -/
inductive PrI2cEepromType
  | eeprom24lc08
  | eeprom24aa64

def PrI2cEepromType.part : PrI2cEepromType → Part
  | .eeprom24lc08 => part24lc08
  | .eeprom24aa64 => part24aa64

/-- `pr_i2c_eeprom_read`, through `vtables`. -/
def prI2cEepromRead : PrI2cEepromType → (inst : I2cInst σ) → (s : σ) → (saddr : UInt8) →
    (addr size : Nat) → PrError × List UInt8 × σ
  | .eeprom24lc08 => eeprom24lc08Read
  | .eeprom24aa64 => eeprom24aa64Read

/-- `pr_i2c_eeprom_write`, through `vtables`. -/
def prI2cEepromWrite : PrI2cEepromType → (inst : I2cInst σ) → (s : σ) → (saddr : UInt8) →
    (addr : Nat) → (data : List UInt8) → (size : Nat) → (saddr0 : UInt8) → (buf0 : Mem UInt8) →
    (fuel : Nat) → Outcome Empty (PrError × σ)
  | .eeprom24lc08 => eeprom24lc08Write
  | .eeprom24aa64 => eeprom24aa64Write

end Picore.I2c
