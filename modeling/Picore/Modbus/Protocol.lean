import Picore.Lib.Memory

/-!
# Modbus frames (`src/modbus/modbus_protocol.h`, `modbus_crc16.c`, `modbus.c`)

The CRC, the byte order of the fields, and the two functions that tell the length
of a frame from its first bytes. `size_t` lengths are natural numbers: none of
them exceeds `2 ^ 16` here.

`modbus_rsp_frame_len` may look at the byte behind the buffer. It is a parameter,
`past`.
-/

namespace Picore.Modbus

open Memory

/-! ## The CRC -/

def modbusCrc16Init : UInt16 := 0xffff

def modbusCrc16CheckState : UInt16 := 0

def modbusCrc16Insert1 (state : UInt16) (word : UInt8) : UInt16 :=
  let index := (state ^^^ word.toUInt16) &&& 1
  let shifted := state >>> 1
  shifted ^^^ (if index = 0 then 0x0000 else 0xa001)

def modbusCrc16Update (state : UInt16) (data : List UInt8) : UInt16 :=
  data.foldl (fun state word =>
    (List.range 8).foldl (fun state b =>
      modbusCrc16Insert1 state ((word >>> UInt8.ofNat b) &&& 1)) state) state

/-- `modbus_crc16_serialize` of `modbus_crc16_finalize`. -/
def modbusCrc16Serialize (state : UInt16) : List UInt8 := [state.toUInt8, (state >>> 8).toUInt8]

@[simp] theorem length_modbusCrc16Serialize (state : UInt16) :
    (modbusCrc16Serialize state).length = 2 := rfl

/-- The check that both parsers make on a frame. -/
def crcValid (frame : List UInt8) : Bool :=
  modbusCrc16Update modbusCrc16Init frame == modbusCrc16CheckState

/-- A frame with these bytes: the CRC is behind them, low byte first. -/
def withCrc (data : List UInt8) : List UInt8 :=
  data ++ modbusCrc16Serialize (modbusCrc16Update modbusCrc16Init data)

/-! ## Byte order (`src/endian/include/pr/endian.h`) -/

/-- The value that `pr_be16_na_read` makes of two bytes. -/
def be16 (hi lo : UInt8) : UInt16 := (hi.toUInt16 <<< 8) ||| lo.toUInt16

/-- The bytes that `pr_be16_na_write` writes. -/
def be16Bytes (value : UInt16) : List UInt8 := [(value >>> 8).toUInt8, value.toUInt8]

@[simp] theorem length_be16Bytes (value : UInt16) : (be16Bytes value).length = 2 := rfl

/-! ## Frame lengths -/

/-- `enum modbus_op`. -/
def readCoils : UInt8 := 1
def readDiscreteInputs : UInt8 := 2
def readHoldingRegisters : UInt8 := 3
def readInputRegisters : UInt8 := 4
def writeSingleCoil : UInt8 := 5
def writeSingleRegister : UInt8 := 6
def writeMultipleCoils : UInt8 := 15
def writeMultipleRegisters : UInt8 := 16
def readDeviceIdentification : UInt8 := 43

def modbusReqFrameLen (data : Mem UInt8) (size : Nat) : Nat :=
  if size < 2 then 0
  else if data 1 = readCoils ∨ data 1 = readDiscreteInputs ∨ data 1 = readHoldingRegisters ∨
      data 1 = readInputRegisters ∨ data 1 = writeSingleCoil ∨ data 1 = writeSingleRegister then 8
  else if data 1 = writeMultipleRegisters ∨ data 1 = writeMultipleCoils then
    if size < 7 then 0 else (data 6).toNat + 9
  else if data 1 = readDeviceIdentification then 7
  else 0

theorem reqFrameLen_ge_seven {m : Mem UInt8} {size len : Nat}
    (hlen : modbusReqFrameLen m size = len) (hne : len ≠ 0) : 7 ≤ len := by
  rw [modbusReqFrameLen] at hlen
  split at hlen
  · exact absurd hlen.symm hne
  split at hlen
  · omega
  split at hlen
  · split at hlen
    · exact absurd hlen.symm hne
    · omega
  split at hlen
  · omega
  · exact absurd hlen.symm hne

/-- The loop of `modbus_rsp_frame_len` over the objects of a device
identification response, `count` of which are left. -/
def objectsLen (past : UInt8) (data : Mem UInt8) (size : Nat) : Nat → Nat → Nat
  | 0, point => point
  | count + 1, point =>
    if size < point + 1 then 0
    else
      let len := if point + 1 < 256 then data (point + 1) else past
      objectsLen past data size count (point + len.toNat + 2)

def modbusRspFrameLen (past : UInt8) (data : Mem UInt8) (size : Nat) : Nat :=
  if size < 2 then 0
  else if data 1 &&& 0x80 ≠ 0 then 5
  else if data 1 = readCoils ∨ data 1 = readDiscreteInputs ∨ data 1 = readHoldingRegisters ∨
      data 1 = readInputRegisters then
    if size < 5 then 0 else (data 2).toNat + 5
  else if data 1 = writeSingleCoil ∨ data 1 = writeSingleRegister ∨
      data 1 = writeMultipleRegisters ∨ data 1 = writeMultipleCoils then 8
  else if data 1 = readDeviceIdentification then
    if size < 7 then 0 else objectsLen past data size (data 7).toNat 8
  else 0

end Picore.Modbus
