import Mathlib.Algebra.Group.Nat.Defs
import Picore.Lib.Bounds
import Picore.Modbus.Protocol

/-!
# Handling a Modbus request (`bus_req_handle` in `src/modbus/modbus.c`)

The response is written over the request, in the same 256 bytes. Every access to
them is checked, and one behind their end is a fault.

The callbacks of the application act on its state, of type `σ`, and are recorded
in `calls`. Error codes are bytes, the size of `enum modbus_error` on the target.
`ptr` and `rsp_size` have 16 bits in the source and stay below `2 ^ 16`.

A function code is handled by a definition of its own. Its result is the error
code, `modbusOk` standing for `goto respond`.
-/

namespace Picore.Modbus

open Memory Fuel

variable {σ : Type}

/-- `enum modbus_error`. -/
def modbusOk : UInt8 := 0
def modbusIllegalFunction : UInt8 := 1
def modbusIllegalDataAddress : UInt8 := 2
def modbusIllegalDataValue : UInt8 := 3
def modbusServerDeviceFailure : UInt8 := 4

/-- `modbus_bool_getter_func_t`. -/
abbrev BoolGetter (σ : Type) := σ → UInt16 → UInt8 × Bool × σ

/-- `modbus_bool_setter_func_t`. -/
abbrev BoolSetter (σ : Type) := σ → UInt16 → Bool → UInt8 × σ

/-- `modbus_reg_getter_func_t`. -/
abbrev RegGetter (σ : Type) := σ → UInt16 → UInt8 × UInt16 × σ

/-- `modbus_reg_setter_func_t`. -/
abbrev RegSetter (σ : Type) := σ → UInt16 → UInt16 → UInt8 × σ

/-- `modbus_devid_func_t`. A string is the list of its bytes before the final
zero. -/
abbrev DevidGetter (σ : Type) := σ → UInt8 → Option (List UInt8) × σ

/-- `struct pr_modbus_handler`: the callbacks of an application, each of which may be `NULL`. `σ` is
the state that they share. -/
structure Handler (σ : Type) where
  coilGet : Option (BoolGetter σ)
  discreteInputGet : Option (BoolGetter σ)
  coilSet : Option (BoolSetter σ)
  holdingRegisterGet : Option (RegGetter σ)
  inputRegisterGet : Option (RegGetter σ)
  holdingRegisterSet : Option (RegSetter σ)
  devid : Option (DevidGetter σ)

/-- A call of a callback with its arguments, as the log of a unit keeps it. For a setter this
includes the value. -/
inductive Callback
  | coilGet (address : UInt16)
  | discreteInputGet (address : UInt16)
  | coilSet (address : UInt16) (value : Bool)
  | holdingRegisterGet (address : UInt16)
  | inputRegisterGet (address : UInt16)
  | holdingRegisterSet (address value : UInt16)
  | devid (id : UInt8)
  deriving DecidableEq

/-- The fields of `struct pr_modbus` that a request is handled with, the state of
the application, and the callbacks made so far. -/
structure PrModbus (σ : Type) where
  addr : UInt8
  buffer : Mem UInt8
  ptr : Nat
  rspSize : Nat
  app : σ
  calls : List Callback

/-- `sizeof(bus->buffer)`. -/
def bufferSize : Nat := 256

/-- `bus->buffer[i]`. -/
def PrModbus.get (s : PrModbus σ) (i : Nat) : Outcome OutOfBounds UInt8 :=
  readAt bufferSize s.buffer i

/-- Bytes written to `bus->buffer + i`. -/
def PrModbus.put (s : PrModbus σ) (i : Nat) (bytes : List UInt8) :
    Outcome OutOfBounds (PrModbus σ) := do
  let buffer ← writeAt bufferSize s.buffer i bytes
  .ok { s with buffer := buffer }

/-- `pr_be16_na_read(bus->buffer + i)`. -/
def PrModbus.getBe16 (s : PrModbus σ) (i : Nat) : Outcome OutOfBounds UInt16 := do
  let hi ← s.get i
  let lo ← s.get (i + 1)
  .ok (be16 hi lo)

def PrModbus.called (s : PrModbus σ) (c : Callback) (app : σ) : PrModbus σ :=
  { s with app := app, calls := s.calls ++ [c] }

@[simp] theorem PrModbus.called_ptr (s : PrModbus σ) (c : Callback) (app : σ) :
    (s.called c app).ptr = s.ptr := rfl

@[simp] theorem PrModbus.called_app (s : PrModbus σ) (c : Callback) (app : σ) :
    (s.called c app).app = app := rfl

@[simp] theorem PrModbus.called_buffer (s : PrModbus σ) (c : Callback) (app : σ) :
    (s.called c app).buffer = s.buffer := rfl

theorem PrModbus.get_ok (s : PrModbus σ) {i : Nat} (h : i < bufferSize) :
    s.get i = .ok (s.buffer i) :=
  readAt_ok s.buffer h

/-- A read that succeeds gives the byte in the buffer. -/
theorem PrModbus.get_value (s : PrModbus σ) (i : Nat) :
    Ensures (fun v => v = s.buffer i) (s.get i) := by
  intro v hok
  unfold PrModbus.get readAt at hok
  split at hok
  · cases hok
    rfl
  · cases hok

def PrModbus.stored (s : PrModbus σ) (i : Nat) (bytes : List UInt8) : PrModbus σ :=
  { s with buffer := store s.buffer i bytes }

@[simp] theorem PrModbus.stored_buffer (s : PrModbus σ) (i : Nat) (bytes : List UInt8) :
    (s.stored i bytes).buffer = store s.buffer i bytes := rfl

@[simp] theorem PrModbus.stored_ptr (s : PrModbus σ) (i : Nat) (bytes : List UInt8) :
    (s.stored i bytes).ptr = s.ptr := rfl

@[simp] theorem PrModbus.stored_app (s : PrModbus σ) (i : Nat) (bytes : List UInt8) :
    (s.stored i bytes).app = s.app := rfl

theorem PrModbus.stored_stored (s : PrModbus σ) (i : Nat) (xs ys : List UInt8) :
    (s.stored i xs).stored (i + xs.length) ys = s.stored i (xs ++ ys) := by
  simp [PrModbus.stored, store_append]

theorem PrModbus.put_ok (s : PrModbus σ) {i : Nat} {bytes : List UInt8}
    (h : i + bytes.length ≤ bufferSize) : s.put i bytes = .ok (s.stored i bytes) := by
  rw [PrModbus.put, writeAt_ok s.buffer h, bind_ok]
  rfl

theorem PrModbus.put_byte_ok (s : PrModbus σ) {i : Nat} (b : UInt8) (h : i < bufferSize) :
    s.put i [b] = .ok (s.stored i [b]) :=
  s.put_ok h

theorem PrModbus.put_fault (s : PrModbus σ) {i : Nat} {bytes : List UInt8}
    (h : bufferSize < i + bytes.length) (hne : bytes ≠ []) :
    s.put i bytes = .error (.fault ⟨max i bufferSize⟩) := by
  rw [PrModbus.put, writeAt_fault s.buffer h hne, bind_error]

theorem PrModbus.getBe16_ok (s : PrModbus σ) {i : Nat} (h : i + 1 < bufferSize) :
    s.getBe16 i = .ok (be16 (s.buffer i) (s.buffer (i + 1))) := by
  rw [PrModbus.getBe16, s.get_ok (Nat.lt_of_succ_lt h), bind_ok, s.get_ok h, bind_ok]

theorem PrModbus.getBe16_value (s : PrModbus σ) (i : Nat) :
    Ensures (fun v => v = be16 (s.buffer i) (s.buffer (i + 1))) (s.getBe16 i) := by
  refine (s.get_value i).bind fun hi hhi => (s.get_value (i + 1)).bind fun lo hlo => ?_
  exact ensures_ok (by rw [hhi, hlo])

/-! ## Reading coils and registers -/

/-- The loop of `bus_req_coils_get_many`, with the number of turns left. -/
def coilsLoop (event : UInt16 → Callback) (getter : BoolGetter σ) (address : UInt16) :
    Nat → Nat → PrModbus σ → Outcome OutOfBounds (UInt8 × PrModbus σ)
  | 0, _, s => .ok (modbusOk, s)
  | n + 1, off, s => do
    let a := address + UInt16.ofNat off
    let (err, value, app) := getter s.app a
    let s := s.called (event a) app
    if err ≠ modbusOk then .ok (err, s)
    else if value then do
      let b ← s.get (s.ptr + off / 8)
      let s ← s.put (s.ptr + off / 8) [b ||| (1 <<< UInt8.ofNat (off % 8))]
      coilsLoop event getter address n (off + 1) s
    else coilsLoop event getter address n (off + 1) s

def busReqCoilsGetMany (event : UInt16 → Callback) (address count : UInt16)
    (getter : Option (BoolGetter σ)) (s : PrModbus σ) : Outcome OutOfBounds (UInt8 × PrModbus σ) :=
  let rspBytes := (count.toNat + 7) / 8
  if rspBytes > 250 then .ok (modbusServerDeviceFailure, s)
  else
    match getter with
    | none => .ok (modbusIllegalFunction, s)
    | some getter => do
      let s ← s.put s.ptr [UInt8.ofNat rspBytes]
      let s := { s with ptr := s.ptr + 1 }
      let s ← s.put s.ptr (List.replicate rspBytes 0)
      let (err, s) ← coilsLoop event getter address count.toNat 0 s
      if err ≠ modbusOk then .ok (err, s)
      else .ok (modbusOk, { s with ptr := s.ptr + rspBytes })

/-- The loop of `bus_req_regs_get_many`, with the number of turns left. -/
def regsLoop (event : UInt16 → Callback) (getter : RegGetter σ) (address : UInt16) :
    Nat → Nat → PrModbus σ → Outcome OutOfBounds (UInt8 × PrModbus σ)
  | 0, _, s => .ok (modbusOk, s)
  | n + 1, off, s => do
    let a := address + UInt16.ofNat off
    let (err, value, app) := getter s.app a
    let s := s.called (event a) app
    if err ≠ modbusOk then .ok (err, s)
    else do
      let s ← s.put s.ptr (be16Bytes value)
      regsLoop event getter address n (off + 1) { s with ptr := s.ptr + 2 }

def busReqRegsGetMany (event : UInt16 → Callback) (address count : UInt16)
    (getter : Option (RegGetter σ)) (s : PrModbus σ) : Outcome OutOfBounds (UInt8 × PrModbus σ) :=
  let rspBytes := count.toNat * 2
  if rspBytes > 250 then .ok (modbusServerDeviceFailure, s)
  else
    match getter with
    | none => .ok (modbusIllegalFunction, s)
    | some getter => do
      let s ← s.put s.ptr [UInt8.ofNat rspBytes]
      regsLoop event getter address count.toNat 0 { s with ptr := s.ptr + 1 }

/-- `MODBUS_READ_COILS` and `MODBUS_READ_DISCRETE_INPUTS`. -/
def reqReadBools (event : UInt16 → Callback) (getter : Option (BoolGetter σ)) (s : PrModbus σ) :
    Outcome OutOfBounds (UInt8 × PrModbus σ) := do
  let address ← s.getBe16 2
  let count ← s.getBe16 4
  busReqCoilsGetMany event address count getter s

/-- `MODBUS_READ_HOLDING_REGISTERS` and `MODBUS_READ_INPUT_REGISTERS`. -/
def reqReadRegs (event : UInt16 → Callback) (getter : Option (RegGetter σ)) (s : PrModbus σ) :
    Outcome OutOfBounds (UInt8 × PrModbus σ) := do
  let address ← s.getBe16 2
  let count ← s.getBe16 4
  busReqRegsGetMany event address count getter s

/-! ## Writing coils and registers -/

/-- A call of `coil_set`, if there is one. -/
def PrModbus.setCoil (h : Handler σ) (s : PrModbus σ) (address : UInt16) (value : Bool) :
    UInt8 × PrModbus σ :=
  match h.coilSet with
  | none => (modbusIllegalFunction, s)
  | some setter =>
    let (err, app) := setter s.app address value
    (err, s.called (.coilSet address value) app)

/-- A call of `holding_register_set`, if there is one. -/
def PrModbus.setReg (h : Handler σ) (s : PrModbus σ) (address value : UInt16) :
    UInt8 × PrModbus σ :=
  match h.holdingRegisterSet with
  | none => (modbusIllegalFunction, s)
  | some setter =>
    let (err, app) := setter s.app address value
    (err, s.called (.holdingRegisterSet address value) app)

/-- The two fields that a response to a write repeats. -/
def PrModbus.echo (s : PrModbus σ) (first second : UInt16) :
    Outcome OutOfBounds (UInt8 × PrModbus σ) := do
  let s ← s.put s.ptr (be16Bytes first)
  let s ← s.put (s.ptr + 2) (be16Bytes second)
  .ok (modbusOk, { s with ptr := s.ptr + 4 })

/-- `MODBUS_WRITE_SINGLE_REGISTER`. -/
def reqWriteSingleRegister (h : Handler σ) (s : PrModbus σ) :
    Outcome OutOfBounds (UInt8 × PrModbus σ) := do
  let address ← s.getBe16 2
  let value ← s.getBe16 4
  let (err, s) := s.setReg h address value
  if err ≠ modbusOk then .ok (err, s) else s.echo address value

/-- `MODBUS_WRITE_SINGLE_COIL`. -/
def reqWriteSingleCoil (h : Handler σ) (s : PrModbus σ) :
    Outcome OutOfBounds (UInt8 × PrModbus σ) := do
  let address ← s.getBe16 2
  let rvalue ← s.getBe16 4
  let value := rvalue != 0
  let (err, s) := s.setCoil h address value
  if err ≠ modbusOk then .ok (err, s) else s.echo address (if value then 0xff00 else 0)

/-- The loop of `MODBUS_WRITE_MULTIPLE_REGISTERS`, with the number of turns left. -/
def writeRegsLoop (h : Handler σ) (address : UInt16) :
    Nat → Nat → PrModbus σ → Outcome OutOfBounds (UInt8 × PrModbus σ)
  | 0, _, s => .ok (modbusOk, s)
  | n + 1, off, s => do
    let value ← s.getBe16 (7 + off * 2)
    let (err, s) := s.setReg h (address + UInt16.ofNat off) value
    if err ≠ modbusOk then .ok (err, s) else writeRegsLoop h address n (off + 1) s

/-- `MODBUS_WRITE_MULTIPLE_REGISTERS`. -/
def reqWriteMultipleRegisters (h : Handler σ) (size : Nat) (s : PrModbus σ) :
    Outcome OutOfBounds (UInt8 × PrModbus σ) := do
  let address ← s.getBe16 2
  let count ← s.getBe16 4
  let byteCount ← s.get 6
  if count.toNat ≠ byteCount.toNat / 2 then .ok (modbusIllegalDataValue, s)
  else if byteCount.toNat + 9 ≠ size then .ok (modbusIllegalDataValue, s)
  else do
    let (err, s) ← writeRegsLoop h address count.toNat 0 s
    if err ≠ modbusOk then .ok (err, s) else s.echo address count

/-- The loop of `MODBUS_WRITE_MULTIPLE_COILS`, with the number of turns left. -/
def writeCoilsLoop (h : Handler σ) (address : UInt16) :
    Nat → Nat → PrModbus σ → Outcome OutOfBounds (UInt8 × PrModbus σ)
  | 0, _, s => .ok (modbusOk, s)
  | n + 1, off, s => do
    let b ← s.get (7 + off / 8)
    let value := (b >>> UInt8.ofNat (off % 8)) &&& 1 != 0
    let (err, s) := s.setCoil h (address + UInt16.ofNat off) value
    if err ≠ modbusOk then .ok (err, s) else writeCoilsLoop h address n (off + 1) s

/-- `MODBUS_WRITE_MULTIPLE_COILS`. -/
def reqWriteMultipleCoils (h : Handler σ) (size : Nat) (s : PrModbus σ) :
    Outcome OutOfBounds (UInt8 × PrModbus σ) := do
  let address ← s.getBe16 2
  let count ← s.getBe16 4
  let byteCount ← s.get 6
  if (count.toNat + 7) / 8 ≠ byteCount.toNat then .ok (modbusIllegalDataValue, s)
  else if byteCount.toNat + 9 ≠ size then .ok (modbusIllegalDataValue, s)
  else do
    let (err, s) ← writeCoilsLoop h address count.toNat 0 s
    if err ≠ modbusOk then .ok (err, s) else s.echo address count

/-! ### What the loops have in common -/

/-- The loop of all four. `turn` is what it does for one value. -/
def writeLoop (turn : Nat → PrModbus σ → Outcome OutOfBounds (UInt8 × PrModbus σ)) :
    Nat → Nat → PrModbus σ → Outcome OutOfBounds (UInt8 × PrModbus σ)
  | 0, _, s => .ok (modbusOk, s)
  | n + 1, off, s => do
    let (err, s) ← turn off s
    if err ≠ modbusOk then .ok (err, s) else writeLoop turn n (off + 1) s

def writeReg (h : Handler σ) (address : UInt16) (off : Nat) (s : PrModbus σ) :
    Outcome OutOfBounds (UInt8 × PrModbus σ) := do
  let value ← s.getBe16 (7 + off * 2)
  .ok (s.setReg h (address + UInt16.ofNat off) value)

def writeCoil (h : Handler σ) (address : UInt16) (off : Nat) (s : PrModbus σ) :
    Outcome OutOfBounds (UInt8 × PrModbus σ) := do
  let b ← s.get (7 + off / 8)
  .ok (s.setCoil h (address + UInt16.ofNat off) ((b >>> UInt8.ofNat (off % 8)) &&& 1 != 0))

def readCoil (event : UInt16 → Callback) (getter : BoolGetter σ) (address : UInt16) (off : Nat)
    (s : PrModbus σ) : Outcome OutOfBounds (UInt8 × PrModbus σ) :=
  let a := address + UInt16.ofNat off
  let (err, value, app) := getter s.app a
  let s := s.called (event a) app
  if err ≠ modbusOk then .ok (err, s)
  else if value then do
    let b ← s.get (s.ptr + off / 8)
    let s ← s.put (s.ptr + off / 8) [b ||| (1 <<< UInt8.ofNat (off % 8))]
    .ok (modbusOk, s)
  else .ok (modbusOk, s)

def readReg (event : UInt16 → Callback) (getter : RegGetter σ) (address : UInt16) (off : Nat)
    (s : PrModbus σ) : Outcome OutOfBounds (UInt8 × PrModbus σ) :=
  let a := address + UInt16.ofNat off
  let (err, value, app) := getter s.app a
  let s := s.called (event a) app
  if err ≠ modbusOk then .ok (err, s)
  else do
    let s ← s.put s.ptr (be16Bytes value)
    .ok (modbusOk, { s with ptr := s.ptr + 2 })

theorem coilsLoop_eq (event : UInt16 → Callback) (getter : BoolGetter σ) (address : UInt16)
    (n off : Nat) (s : PrModbus σ) :
    coilsLoop event getter address n off s = writeLoop (readCoil event getter address) n off s := by
  induction n generalizing off s with
  | zero => rfl
  | succ n ih =>
    rw [coilsLoop, writeLoop, readCoil]
    simp only [ih]
    split
    · simp only [bind_ok, if_pos ‹_›]
    split
    · cases (s.called _ _).get _ with
      | ok b =>
        simp only [bind_ok]
        cases (s.called _ _).put _ _ with
        | ok s' => simp only [bind_ok, ne_eq, not_true, if_false]
        | error e => rfl
      | error e => rfl
    · simp only [bind_ok, ne_eq, not_true, if_false]

theorem regsLoop_eq (event : UInt16 → Callback) (getter : RegGetter σ) (address : UInt16)
    (n off : Nat) (s : PrModbus σ) :
    regsLoop event getter address n off s = writeLoop (readReg event getter address) n off s := by
  induction n generalizing off s with
  | zero => rfl
  | succ n ih =>
    rw [regsLoop, writeLoop, readReg]
    simp only [ih]
    split
    · simp only [bind_ok, if_pos ‹_›]
    · cases (s.called _ _).put _ _ with
      | ok s' => simp only [bind_ok, ne_eq, not_true, if_false]
      | error e => rfl

theorem writeRegsLoop_eq (h : Handler σ) (address : UInt16) (n off : Nat) (s : PrModbus σ) :
    writeRegsLoop h address n off s = writeLoop (writeReg h address) n off s := by
  induction n generalizing off s with
  | zero => rfl
  | succ n ih =>
    rw [writeRegsLoop, writeLoop, writeReg]
    cases s.getBe16 (7 + off * 2) with
    | ok value => simp only [bind_ok, ih]
    | error e => rfl

theorem writeCoilsLoop_eq (h : Handler σ) (address : UInt16) (n off : Nat) (s : PrModbus σ) :
    writeCoilsLoop h address n off s = writeLoop (writeCoil h address) n off s := by
  induction n generalizing off s with
  | zero => rfl
  | succ n ih =>
    rw [writeCoilsLoop, writeLoop, writeCoil]
    cases s.get (7 + off / 8) with
    | ok b => simp only [bind_ok, ih]
    | error e => rfl

/-- The two. `Fits` compares the count with the byte count. -/
def reqWriteMultiple (Fits : UInt16 → UInt8 → Prop) [DecidableRel Fits]
    (turn : UInt16 → Nat → PrModbus σ → Outcome OutOfBounds (UInt8 × PrModbus σ)) (size : Nat)
    (s : PrModbus σ) : Outcome OutOfBounds (UInt8 × PrModbus σ) := do
  let address ← s.getBe16 2
  let count ← s.getBe16 4
  let byteCount ← s.get 6
  if ¬Fits count byteCount then .ok (modbusIllegalDataValue, s)
  else if byteCount.toNat + 9 ≠ size then .ok (modbusIllegalDataValue, s)
  else do
    let (err, s) ← writeLoop (turn address) count.toNat 0 s
    if err ≠ modbusOk then .ok (err, s) else s.echo address count

def RegsFit (count : UInt16) (byteCount : UInt8) : Prop := count.toNat = byteCount.toNat / 2

def CoilsFit (count : UInt16) (byteCount : UInt8) : Prop :=
  (count.toNat + 7) / 8 = byteCount.toNat

instance : DecidableRel RegsFit := fun count byteCount =>
  inferInstanceAs (Decidable (count.toNat = byteCount.toNat / 2))

instance : DecidableRel CoilsFit := fun count byteCount =>
  inferInstanceAs (Decidable ((count.toNat + 7) / 8 = byteCount.toNat))

theorem reqWriteMultipleRegisters_eq (h : Handler σ) (size : Nat) (s : PrModbus σ) :
    reqWriteMultipleRegisters h size s = reqWriteMultiple RegsFit (writeReg h) size s := by
  simp only [reqWriteMultipleRegisters, writeRegsLoop_eq]
  rfl

theorem reqWriteMultipleCoils_eq (h : Handler σ) (size : Nat) (s : PrModbus σ) :
    reqWriteMultipleCoils h size s = reqWriteMultiple CoilsFit (writeCoil h) size s := by
  simp only [reqWriteMultipleCoils, writeCoilsLoop_eq]
  rfl

/-- If the two counts and the size of the frame agree, the loop runs. Else it is an error. -/
theorem reqWriteMultiple_cases {Fits : UInt16 → UInt8 → Prop} [DecidableRel Fits]
    {turn : UInt16 → Nat → PrModbus σ → Outcome OutOfBounds (UInt8 × PrModbus σ)} {size : Nat}
    {s : PrModbus σ} {r : UInt8 × PrModbus σ} (hr : reqWriteMultiple Fits turn size s = .ok r)
    {address count : UInt16} (haddress : be16 (s.buffer 2) (s.buffer 3) = address)
    (hcount : be16 (s.buffer 4) (s.buffer 5) = count) :
    ¬(Fits count (s.buffer 6) ∧ (s.buffer 6).toNat + 9 = size) ∧
      r = (modbusIllegalDataValue, s) ∨
    Fits count (s.buffer 6) ∧ (s.buffer 6).toNat + 9 = size ∧
      ∃ r1, writeLoop (turn address) count.toNat 0 s = .ok r1 ∧
        (if r1.1 ≠ modbusOk then .ok (r1.1, r1.2) else r1.2.echo address count) = .ok r := by
  obtain ⟨a, ha, hr⟩ := bind_eq_ok.mp hr
  obtain ⟨c, hc, hr⟩ := bind_eq_ok.mp hr
  obtain ⟨b, hb, hr⟩ := bind_eq_ok.mp hr
  obtain rfl : a = address := (PrModbus.getBe16_value _ _ _ ha).trans haddress
  obtain rfl : c = count := (PrModbus.getBe16_value _ _ _ hc).trans hcount
  obtain rfl : b = s.buffer 6 := PrModbus.get_value _ _ _ hb
  split at hr
  · next hfits =>
    cases hr
    exact .inl ⟨fun h => hfits h.1, rfl⟩
  · next hfits =>
    split at hr
    · next hsize =>
      cases hr
      exact .inl ⟨fun h => hsize h.2, rfl⟩
    · next hsize =>
      obtain ⟨r1, hloop, hr⟩ := bind_eq_ok.mp hr
      exact .inr ⟨not_not.mp hfits, not_not.mp hsize, r1, hloop, hr⟩

/-- What every turn does to the state, the loop does. -/
theorem writeLoop_ensures {R : PrModbus σ → PrModbus σ → Prop} (hrefl : ∀ s, R s s)
    (htrans : ∀ s t u, R s t → R t u → R s u)
    {turn : Nat → PrModbus σ → Outcome OutOfBounds (UInt8 × PrModbus σ)}
    (hturn : ∀ off s, Ensures (fun r => R s r.2) (turn off s)) (n off : Nat) (s : PrModbus σ) :
    Ensures (fun r => R s r.2) (writeLoop turn n off s) := by
  induction n generalizing off s with
  | zero => exact ensures_ok (hrefl s)
  | succ n ih =>
    refine (hturn off s).bind fun ⟨err, s1⟩ h1 => ?_
    simp only at h1 ⊢
    split
    · exact ensures_ok h1
    · exact fun r hr => htrans _ _ _ h1 (ih (off + 1) s1 r hr)

/-! ## Device identification -/

/-- A call of `devid`, if there is one. -/
def PrModbus.askDevid (h : Handler σ) (s : PrModbus σ) (id : UInt8) :
    Option (List UInt8) × PrModbus σ :=
  match h.devid with
  | none => (none, s)
  | some getter =>
    let (data, app) := getter s.app id
    (data, s.called (.devid id) app)

/-- `sizeof(bus->buffer) - 4 - bus->ptr`, a `size_t`. -/
def spaceLeft (ptr : Nat) : Nat := (bufferSize - 4 + 2 ^ 32 - ptr) % 2 ^ 32

/-- The object is written behind the ones before it, and counted. -/
def PrModbus.putObject (s : PrModbus σ) (id : UInt8) (len : Nat) (data : List UInt8) :
    Outcome OutOfBounds (PrModbus σ) := do
  let s ← s.put s.ptr [id]
  let s ← s.put (s.ptr + 1) [UInt8.ofNat len]
  let s ← s.put (s.ptr + 2) (data.take len)
  let s := { s with ptr := s.ptr + (len + 2) }
  let count ← s.get 7
  s.put 7 [count + 1]

/-- The loop over the object ids, from `i` on. Its index has 8 bits. -/
def devidLoop (h : Handler σ) (last : UInt8) :
    Nat → UInt8 → PrModbus σ → Outcome OutOfBounds (PrModbus σ)
  | 0, _, _ => .error .timeout
  | fuel + 1, i, s =>
    if i ≤ last then do
      let left := spaceLeft s.ptr
      let (data, s) := s.askDevid h i
      let s ← s.put 6 [i + 1]
      match data with
      | none => devidLoop h last fuel (i + 1) s
      | some data =>
        let len := min data.length 0x40
        if left < len then s.put 6 [i]
        else do
          let s ← s.putObject i len data
          devidLoop h last fuel (i + 1) s
    else .ok s

/-- `last_object_id` of an access code. -/
def lastObjectId (code : UInt8) : Option UInt8 :=
  if code = 1 then some 0x02
  else if code = 2 then some 0x7f
  else if code = 3 then some 0xff
  else none

/-- `MODBUS_READ_DEVICE_IDENTIFICATION`. -/
def reqReadDeviceIdentification (h : Handler σ) (fuel : Nat) (s : PrModbus σ) :
    Outcome OutOfBounds (UInt8 × PrModbus σ) := do
  let mei ← s.get 2
  let code ← s.get 3
  let objectId ← s.get 4
  if mei ≠ 0xe then .ok (modbusIllegalDataValue, s)
  else
    match lastObjectId code with
    | none => .ok (modbusIllegalDataValue, s)
    | some last => do
      let s ← s.put 2 [mei, code, 0x83, 0, 0, 0]
      let s ← devidLoop h last fuel objectId { s with ptr := 8 }
      let next ← s.get 6
      if next ≥ last then do
        let s ← s.put 5 [0, 0]
        .ok (modbusOk, s)
      else do
        let s ← s.put 5 [0xff]
        .ok (modbusOk, s)

/-! ## The response -/

/-- The `switch` of `bus_req_handle`. -/
def busReqSwitch (h : Handler σ) (size fuel : Nat) (func : UInt8) (s : PrModbus σ) :
    Outcome OutOfBounds (UInt8 × PrModbus σ) :=
  if func = readCoils then reqReadBools .coilGet h.coilGet s
  else if func = readDiscreteInputs then reqReadBools .discreteInputGet h.discreteInputGet s
  else if func = readHoldingRegisters then
    reqReadRegs .holdingRegisterGet h.holdingRegisterGet s
  else if func = readInputRegisters then reqReadRegs .inputRegisterGet h.inputRegisterGet s
  else if func = writeSingleRegister then reqWriteSingleRegister h s
  else if func = writeSingleCoil then reqWriteSingleCoil h s
  else if func = writeMultipleRegisters then reqWriteMultipleRegisters h size s
  else if func = writeMultipleCoils then reqWriteMultipleCoils h size s
  else if func = readDeviceIdentification then reqReadDeviceIdentification h fuel s
  else .ok (modbusIllegalFunction, s)

/-- The label `error`: the buffer gets the exception with the code `err`. -/
def respondError (err : UInt8) (s : PrModbus σ) : Outcome OutOfBounds (PrModbus σ) := do
  let func ← s.get 1
  let s ← s.put 1 [func ||| 0x80]
  let s ← s.put 2 [err]
  .ok { s with ptr := 3 }

/-- The label `respond`, up to the call of `modbus_tx_try`. -/
def respond (s : PrModbus σ) : Outcome OutOfBounds (PrModbus σ) := do
  let bytes ← loadAt bufferSize s.buffer 0 s.ptr
  let s ← s.put s.ptr (modbusCrc16Serialize (modbusCrc16Update modbusCrc16Init bytes))
  .ok { s with rspSize := s.ptr + 2, ptr := 0 }

/-- `bus_req_handle` up to the call of `modbus_tx_try`, and whether it makes this
call. -/
def busReqRespond (h : Handler σ) (size fuel : Nat) (s : PrModbus σ) :
    Outcome OutOfBounds (Bool × PrModbus σ) := do
  let addr ← s.get 0
  let func ← s.get 1
  let s := { s with ptr := 0, rspSize := 0 }
  if addr ≠ s.addr then .ok (false, s)
  else do
    let s ← s.put 0 [s.addr, func]
    let (err, s) ← busReqSwitch h size fuel func { s with ptr := 2 }
    let s ← (if err ≠ modbusOk then respondError err s else .ok s : Outcome ..)
    let s ← respond s
    .ok (true, s)

end Picore.Modbus
