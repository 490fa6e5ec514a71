import Mathlib.Algebra.Group.Nat.Defs
import Picore.Lib.Memory

/-!
# I2C transactions (`src/i2c_bus/i2c_bus.c`)

The bus functions wrap two blocking calls of the Pico SDK. The SDK is a
parameter: an `I2cInst` answers both calls on a state `σ`, which stands for the
devices on the bus.
-/

namespace Picore.I2c

variable {σ : Type}

/-- `pr_error_t` of `pr/error.h`, the error codes that the drivers and the pointer queue return. -/
inductive PrError
  | ok
  | unknown
  | memory
  | io
  | address
  | timeout
  | inval
  | busy
  | impl
  deriving DecidableEq, Repr

/-- The calls of the Pico SDK that `i2c_bus.c` makes, and the two error codes it
tells apart. Both calls return the number of bytes transferred or a negative
error code. A read returns the bytes that it left in the destination. -/
structure I2cInst (σ : Type) where
  errorGeneric : Int
  errorTimeout : Int
  writeBlocking : σ → UInt8 → List UInt8 → Bool → Int × σ
  readBlocking : σ → UInt8 → Nat → Bool → Int × List UInt8 × σ

/-- The conversion of a `size_t` argument to a parameter of type `int`. -/
def toInt (n : Nat) : Int := Int.bmod n (2 ^ 32)

def picoToPrErr (inst : I2cInst σ) (err count : Int) : PrError :=
  if err = count then .ok
  else if 0 ≤ err ∧ err < count then .io
  else if err = inst.errorGeneric then .address
  else if err = inst.errorTimeout then .timeout
  else .io

def prI2cBusWrite (inst : I2cInst σ) (s : σ) (saddr : UInt8) (data : List UInt8) : PrError × σ :=
  let (err, s) := inst.writeBlocking s saddr data false
  (picoToPrErr inst err (toInt data.length), s)

/-- `pr_i2c_bus_write_read`: the result, the bytes left in `rdata`, and the
bus. The read is only made when the write succeeds. -/
def prI2cBusWriteRead (inst : I2cInst σ) (s : σ) (saddr : UInt8) (wdata : List UInt8)
    (rsize : Nat) : PrError × List UInt8 × σ :=
  let (err, s) := inst.writeBlocking s saddr wdata true
  match picoToPrErr inst err (toInt wdata.length) with
  | .ok =>
    let (err, rdata, s) := inst.readBlocking s saddr rsize false
    (picoToPrErr inst err (toInt rsize), rdata, s)
  | be => (be, [], s)

@[simp] theorem picoToPrErr_self (inst : I2cInst σ) (n : Int) : picoToPrErr inst n n = .ok := by
  simp [picoToPrErr]

theorem picoToPrErr_ne_ok (inst : I2cInst σ) {err count : Int} (h : err ≠ count) :
    picoToPrErr inst err count ≠ .ok := by
  rw [picoToPrErr, if_neg h]
  split
  · decide
  · split
    · decide
    · split
      · decide
      · decide

/-- A transaction whose write and read both transfer every byte succeeds. -/
theorem prI2cBusWriteRead_ok {inst : I2cInst σ} {s s1 s2 : σ} {saddr : UInt8}
    {wdata rdata : List UInt8} {rsize : Nat}
    (hw : inst.writeBlocking s saddr wdata true = (toInt wdata.length, s1))
    (hr : inst.readBlocking s1 saddr rsize false = (toInt rsize, rdata, s2)) :
    prI2cBusWriteRead inst s saddr wdata rsize = (.ok, rdata, s2) := by
  simp only [prI2cBusWriteRead, hw, hr, picoToPrErr_self]

end Picore.I2c
