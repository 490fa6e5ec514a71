import Picore.Modbus.Response
import Picore.Modbus.Stream
import Picore.Modbus.Termination
import Picore.Modbus.Transmit

/-!
# Every request has an answer

A request to the unit is answered once, with a response or an error. For this its
length must be known: `modbus_req_frame_len` knows it for the function codes that
`bus_req_handle` has a case for, and for no other, so that the error for the others is
never sent.

Results:
1. `work_frame`, `work_silent`: what the worker does with a request it has read.
2. `busReqSwitch_unsupported`: what a function code without a callback is answered.
3. `answered_iff`: the exact condition.
-/

namespace Picore.Modbus

open Memory Fuel Transition

variable {σ : Type}

/-! ## 1. Requests and answers -/

/-- `modbus_req_frame_len` has a length for this function code. -/
def KnownCode (func : UInt8) : Prop :=
  func = readCoils ∨ func = readDiscreteInputs ∨ func = readHoldingRegisters ∨
    func = readInputRegisters ∨ func = writeSingleCoil ∨ func = writeSingleRegister ∨
    func = writeMultipleRegisters ∨ func = writeMultipleCoils ∨ func = readDeviceIdentification

instance (func : UInt8) : Decidable (KnownCode func) :=
  inferInstanceAs (Decidable (_ ∨ _))

/-- A CRC-valid request of any function code to the unit with this address. It has the length that
the function code asks for, if this is known, also where the buffer has no room for it. -/
structure RequestTo (addr : UInt8) (frame : List UInt8) : Prop where
  length_ge : 4 ≤ frame.length
  crc : crcValid frame = true
  addressed : frameMem frame 0 = addr
  func : frameMem frame 1 < 0x80
  frame_len : KnownCode (frameMem frame 1) →
    modbusReqFrameLen (frameMem frame) frame.length = frame.length

/-- The unit supports the function code: it has the callback. The loop over the object
ids takes a missing `devid` for one that has no objects. -/
def Handler.supports (h : Handler σ) (func : UInt8) : Bool :=
  if func = readCoils then h.coilGet.isSome
  else if func = readDiscreteInputs then h.discreteInputGet.isSome
  else if func = readHoldingRegisters then h.holdingRegisterGet.isSome
  else if func = readInputRegisters then h.inputRegisterGet.isSome
  else if func = writeSingleRegister ∨ func = writeMultipleRegisters then
    h.holdingRegisterSet.isSome
  else if func = writeSingleCoil ∨ func = writeMultipleCoils then h.coilSet.isSome
  else func = readDeviceIdentification

/-- A response to function code `func`. An unsupported one has a given error. -/
inductive Answers (h : Handler σ) (addr func : UInt8) : List UInt8 → Prop
  | ok (data : List UInt8) : h.supports func = true →
      Answers h addr func (withCrc (addr :: func :: data))
  | error (err : UInt8) : err ≠ modbusOk →
      (h.supports func = false → err = modbusIllegalFunction) →
      Answers h addr func (withCrc [addr, func ||| 0x80, err])

/-- Nothing is being received or sent, and the tx FIFO has room for any response. -/
structure Node.Ready (n : Node σ) : Prop where
  ptr : n.bus.ptr = 0
  rsp_size : n.bus.rspSize = 0
  rx : n.rx = []
  room : bufferSize ≤ n.free

/-- The frame is delivered and the worker runs: one response is written. -/
def AnsweredOnce (h : Handler σ) (k : Nat) (past : UInt8) (frame : List UInt8)
    (n : Node σ) : Prop :=
  ∃ fuel n' rsp, exec (step h) n [.arrive frame, .work k fuel past] = some n' ∧
    n'.written = n.written ++ rsp ∧ n'.responses = n.responses ++ [rsp] ∧
    Answers h n.bus.addr (frameMem frame 1) rsp

/-- The request in `m` is not answered for its missing callback: other values are checked
before it is looked for, and it is not looked for if there is nothing to set. -/
def CheckedFirst (func : UInt8) (m : Mem UInt8) : Prop :=
  let count := (be16 (m 4) (m 5)).toNat
  if func = readCoils ∨ func = readDiscreteInputs then 250 < (count + 7) / 8
  else if func = readHoldingRegisters ∨ func = readInputRegisters then 250 < count * 2
  else if func = writeMultipleRegisters then count ≠ (m 6).toNat / 2 ∨ count = 0
  else if func = writeMultipleCoils then (count + 7) / 8 ≠ (m 6).toNat ∨ count = 0
  else False

/-- What it takes for a request to be answered as it should be. The last two are what it takes for
the handling of a request to return. -/
structure Answerable (h : Handler σ) (k : Nat) (n : Node σ) (frame : List UInt8) : Prop where
  fits : frame.length ≤ bufferSize
  known : KnownCode (frameMem frame 1)
  read : frame.length ≤ k
  supported : h.supports (frameMem frame 1) = false →
    ¬ CheckedFirst (frameMem frame 1) (frameMem frame)
  no_overrun : ∀ last, DevidRequest (n.bus.receives frame) last →
    ¬ Overruns h last (frameMem frame 4) n.bus.app
  left : DevidRequest (n.bus.receives frame) 0xff → LoopLeft h (frameMem frame 4) n.bus.app

theorem RequestTo.length_pos {addr : UInt8} {frame : List UInt8} (hf : RequestTo addr frame) :
    0 < frame.length :=
  Nat.lt_of_lt_of_le (by decide) hf.length_ge

theorem RequestTo.frame {addr : UInt8} {frame : List UInt8} (hf : RequestTo addr frame)
    (hle : frame.length ≤ bufferSize) (hknown : KnownCode (frameMem frame 1)) :
    RequestFrame frame :=
  ⟨hf.length_pos, hle, hf.frame_len hknown, hf.crc⟩

/-- A request of a known function code has its fields. -/
theorem RequestTo.length_ge_seven {addr : UInt8} {frame : List UInt8} (hf : RequestTo addr frame)
    (hknown : KnownCode (frameMem frame 1)) : 7 ≤ frame.length :=
  reqFrameLen_ge_seven (hf.frame_len hknown)
    (Nat.ne_of_gt (Nat.lt_of_lt_of_le (by decide) hf.length_ge))

theorem RequestTo.byteCount {addr : UInt8} {frame : List UInt8} (hf : RequestTo addr frame)
    (hmany : frameMem frame 1 = writeMultipleRegisters ∨
      frameMem frame 1 = writeMultipleCoils) :
    (frameMem frame 6).toNat + 9 = frame.length := by
  have hknown : KnownCode (frameMem frame 1) := by
    unfold KnownCode
    tauto
  have h7 := hf.length_ge_seven hknown
  have hlen := hf.frame_len hknown
  rw [modbusReqFrameLen, if_neg (by omega)] at hlen
  rw [if_neg (by rcases hmany with h | h <;> rw [h] <;> decide), if_pos hmany,
    if_neg (by omega)] at hlen
  exact hlen

theorem Answers.unsupported {h : Handler σ} {addr func : UInt8} {rsp : List UInt8}
    (hans : Answers h addr func rsp) (hsup : h.supports func = false) :
    rsp = withCrc [addr, func ||| 0x80, modbusIllegalFunction] := by
  cases hans with
  | ok data hs =>
    rw [hsup] at hs
    cases hs
  | error err herr hillegal => rw [hillegal hsup]

namespace AnswerLemmas

/-! ## 2. The worker -/

theorem reqFrameLen_unknown {m : Mem UInt8} (hm : ¬ KnownCode (m 1)) (size : Nat) :
    modbusReqFrameLen m size = 0 := by
  unfold KnownCode at hm
  unfold modbusReqFrameLen
  split
  · rfl
  rw [if_neg (fun h1 => hm (by tauto)), if_neg (fun h1 => hm (by tauto)),
    if_neg (fun h1 => hm (by tauto))]

/-- The unit once the worker has read from the rx FIFO. -/
def reading (k : Nat) (frame : List UInt8) (n : Node σ) : Node σ :=
  { n with bus := n.bus.receives (frame.take k), rx := frame.drop k, worker := false }

theorem exec_frame (h : Handler σ) (k fuel : Nat) (past : UInt8) {n : Node σ} (hn : n.Ready)
    {frame : List UInt8} (hpos : 0 < frame.length)
    (hle : frame.length ≤ bufferSize ∨ k ≤ bufferSize) :
    exec (step h) n [.arrive frame, .work k fuel past] = (do
      let (useful, n) ← modbusReqTry h fuel (reading k frame n)
      if useful then .ok n
      else
        let (useful, n) := modbusRspTry past n
        if useful then .ok n
        else if n.bus.ptr ≠ 0 then .ok n.execClear
        else .ok n : Outcome ..).toOption := by
  have hworker : (n.arrived frame).worker = true := by
    have hne : frame.isEmpty = false := List.isEmpty_eq_false_iff.mpr
      (List.ne_nil_of_length_pos hpos)
    simp [Node.arrived, hne]
  have hrecv : ({ n.arrived frame with worker := false } : Node σ).received k =
      reading k frame n := by
    have htake : frame.take (min k (bufferSize - 0)) = frame.take k := by
      rw [Nat.sub_zero]
      rcases Nat.le_total k bufferSize with h1 | h1
      · rw [Nat.min_eq_left h1]
      rcases hle with hle | hk
      · rw [Nat.min_eq_right h1, List.take_of_length_le hle,
          List.take_of_length_le (Nat.le_trans hle h1)]
      · rw [Nat.min_eq_left hk]
    have hdrop : frame.drop (frame.take k).length = frame.drop k := by
      rw [List.length_take]
      rcases Nat.le_total k frame.length with h1 | h1
      · rw [Nat.min_eq_left h1]
      · rw [Nat.min_eq_right h1, List.drop_length, List.drop_of_length_le h1]
    unfold Node.received reading Node.arrived PrModbus.receives
    simp only [hn.ptr, hn.rx, List.nil_append, htake, hdrop, Nat.zero_add]
    rfl
  have hwork : onWork h k fuel past { n.arrived frame with worker := false } =
      modbusRxTry h k fuel past { n.arrived frame with worker := false } :=
    if_neg (not_not.mpr hn.rsp_size)
  rw [exec, step, Option.bind_some, exec, step, if_pos hworker, hwork, modbusRxTry, hrecv]
  exact Option.bind_fun_some _

/-- The worker reads no more than the buffer has room for. -/
theorem step_work_min (h : Handler σ) (k fuel : Nat) (past : UInt8) (n : Node σ) :
    step h n (.work (min k bufferSize) fuel past) = step h n (.work k fuel past) := by
  have hrecv (m : Node σ) : m.received (min k bufferSize) = m.received k := by
    have hmin : min (min k bufferSize) (bufferSize - m.bus.ptr) =
        min k (bufferSize - m.bus.ptr) := by
      rw [Nat.min_assoc, Nat.min_eq_right (Nat.sub_le _ _)]
    unfold Node.received
    rw [hmin]
  simp only [step, onWork, modbusRxTry, hrecv]

theorem answeredOnce_min (h : Handler σ) (k : Nat) (past : UInt8) (frame : List UInt8)
    (n : Node σ) :
    AnsweredOnce h (min k bufferSize) past frame n ↔ AnsweredOnce h k past frame n := by
  simp only [AnsweredOnce, exec, step_work_min]

/-- `modbus_req_try` finds no request in the buffer, or drops what seems to be one that is too
long. -/
def Unhandled (h : Handler σ) (fuel : Nat) (n : Node σ) : Prop :=
  modbusReqTry h fuel n = .ok (false, n) ∨
    modbusReqTry h fuel n = .ok (true, { n with bus := { n.bus with ptr := 0 } })

/-- A worker that has not handled a request writes nothing. -/
theorem work_silent {h : Handler σ} {k fuel : Nat} {past : UInt8} {n n' : Node σ} (hn : n.Ready)
    {frame : List UInt8} (hpos : 0 < frame.length)
    (hle : frame.length ≤ bufferSize ∨ k ≤ bufferSize)
    (hreq : Unhandled h fuel (reading k frame n))
    (hrun : exec (step h) n [.arrive frame, .work k fuel past] = some n') :
    n'.written = n.written := by
  have hrsp := TransmitLemmas.modbusRspTry_silent past (n := reading k frame n) hn.rsp_size
  rw [exec_frame h k fuel past hn hpos hle] at hrun
  rcases hreq with hreq | hreq
  · rw [hreq, bind_ok] at hrun
    simp only [Bool.false_eq_true, if_false] at hrun
    split at hrun
    · cases hrun
      exact hrsp.written
    split at hrun
    · cases hrun
      exact hrsp.written
    · cases hrun
      exact hrsp.written
  · rw [hreq, bind_ok] at hrun
    cases hrun
    rfl

/-- The request is not found if its length is unknown. -/
theorem unhandled_unknown (h : Handler σ) (k fuel : Nat) (n : Node σ)
    {frame : List UInt8} (hunknown : ¬ KnownCode (frameMem frame 1)) :
    Unhandled h fuel (reading k frame n) := by
  have hlen : modbusReqFrameLen (reading k frame n).bus.buffer (reading k frame n).bus.ptr = 0 := by
    rcases Nat.lt_or_ge (frame.take k).length 2 with h2 | h2
    · rw [modbusReqFrameLen]
      exact if_pos h2
    · refine reqFrameLen_unknown ?_ _
      have h1 : (reading k frame n).bus.buffer 1 = frameMem frame 1 :=
        store_part (List.take_prefix k frame) _ _ 1 h2
      rw [h1]
      exact hunknown
  refine .inl ?_
  rw [modbusReqTry, hlen, if_pos rfl]

/-- A part of a request is left in the buffer, or dropped if the whole would not fit there. -/
theorem unhandled_unread (h : Handler σ) {k : Nat} (fuel : Nat) (n : Node σ) {frame : List UInt8}
    (hlen : modbusReqFrameLen (frameMem frame) frame.length = frame.length)
    (hk : k < frame.length) : Unhandled h fuel (reading k frame n) := by
  have hp : PartOf (frame.take k) frame := by
    refine ⟨List.take_prefix k frame, fun he => ?_⟩
    have h1 := congrArg List.length he
    rw [List.length_take] at h1
    omega
  have hlt : frame.length > (reading k frame n).bus.ptr := hp.length_lt
  have hpart : modbusReqFrameLen (reading k frame n).bus.buffer (reading k frame n).bus.ptr = 0 ∨
      modbusReqFrameLen (reading k frame n).bus.buffer (reading k frame n).bus.ptr =
        frame.length :=
    hp.reqFrameLen hlen n.bus.buffer
  unfold Unhandled
  rw [modbusReqTry]
  rcases hpart with h0 | h1
  · rw [h0, if_pos rfl]
    exact .inl rfl
  · rw [h1]
    simp only
    rw [if_neg (Nat.ne_of_gt (Nat.zero_lt_of_lt hk))]
    rcases Nat.lt_or_ge bufferSize frame.length with hbig | hle
    · exact .inr (if_pos hbig)
    · rw [if_neg (Nat.not_lt_of_le hle), if_pos hlt]
      exact .inl rfl

theorem work_frame (h : Handler σ) {k : Nat} (fuel : Nat) (past : UInt8) {n : Node σ}
    (hn : n.Ready) {frame : List UInt8} (hf : RequestFrame frame) (hk : frame.length ≤ k) :
    exec (step h) n [.arrive frame, .work k fuel past] =
      (busReqHandle h frame.length fuel (reading k frame n)).toOption := by
  have htake : frame.take k = frame := List.take_of_length_le hk
  have hlen : modbusReqFrameLen (reading k frame n).bus.buffer (reading k frame n).bus.ptr =
      frame.length := by
    show modbusReqFrameLen (store n.bus.buffer 0 (frame.take k)) (frame.take k).length = _
    have h1 := hf.reqFrameLen [] n.bus.buffer
    rw [List.append_nil] at h1
    rw [htake, h1]
  have hload : load (reading k frame n).bus.buffer 0 frame.length = frame := by
    show load (store n.bus.buffer 0 (frame.take k)) 0 frame.length = frame
    rw [htake, load_store_self]
  have hptr : ¬ frame.length > (reading k frame n).bus.ptr :=
    Nat.not_lt_of_le (Nat.le_of_eq (congrArg List.length htake).symm)
  rw [exec_frame h k fuel past hn hf.length_pos (.inl hf.length_le), modbusReqTry]
  simp only
  rw [hlen, if_neg (Nat.ne_of_gt hf.length_pos), if_neg (Nat.not_lt_of_le hf.length_le),
    if_neg hptr, hload, if_neg (not_not.mpr hf.crc)]
  cases busReqHandle h frame.length fuel (reading k frame n) with
  | error e => rfl
  | ok n1 => rfl

/-- When a request has been handled, the whole response goes into the tx FIFO of a unit that was
ready, which has room for it. -/
theorem handled_writes {n : Node σ} (hn : n.Ready) {r : Bool × PrModbus σ} (k : Nat)
    (frame : List UInt8) (hcalled : r.1 = true) (hptr : r.2.ptr = 0)
    (hle : r.2.rspSize ≤ bufferSize) :
    ((reading k frame n).handled r).written = n.written ++ load r.2.buffer 0 r.2.rspSize ∧
      ((reading k frame n).handled r).responses =
        n.responses ++ [load r.2.buffer 0 r.2.rspSize] := by
  have htx : min (r.2.rspSize - r.2.ptr) (reading k frame n).free = r.2.rspSize := by
    rw [hptr, Nat.sub_zero]
    exact Nat.min_eq_left (Nat.le_trans hle hn.room)
  rw [Node.handled, if_pos hcalled]
  unfold modbusTxTry
  simp only [htx]
  rw [if_pos (by rw [hptr, Nat.zero_add]), hptr]
  exact ⟨rfl, rfl⟩

/-! ## 3. Function codes without a callback -/

/-- The error for a missing callback, unless other values are checked first. -/
def Refused (func : UInt8) (m : Mem UInt8) (r : UInt8 × PrModbus σ) : Prop :=
  r.1 = modbusIllegalFunction ↔ ¬ CheckedFirst func m

theorem refused_other {func err : UInt8} {m : Mem UInt8} (s : PrModbus σ)
    (hne : err ≠ modbusIllegalFunction) (hfirst : CheckedFirst func m) :
    Refused func m (err, s) :=
  iff_of_false hne (not_not.mpr hfirst)

theorem refused_missing {func : UInt8} {m : Mem UInt8} (s : PrModbus σ)
    (hfirst : ¬ CheckedFirst func m) : Refused func m (modbusIllegalFunction, s) :=
  iff_of_true rfl hfirst

theorem readBools_unsupported {func : UInt8} (hf : func = readCoils ∨ func = readDiscreteInputs)
    (event : UInt16 → Callback) (s : PrModbus σ) :
    Ensures (Refused func s.buffer) (reqReadBools event none s) := by
  refine (Ensures.trivial _).bind fun address _ =>
    (s.getBe16_value _).bind fun count hcount => ?_
  unfold busReqCoilsGetMany
  simp only
  have hfirst : CheckedFirst func s.buffer ↔ 250 < (count.toNat + 7) / 8 := by
    rw [CheckedFirst, if_pos hf, hcount]
  split
  · exact ensures_ok (refused_other s (by decide) (hfirst.mpr ‹_›))
  · exact ensures_ok (refused_missing s fun h1 => absurd (hfirst.mp h1) ‹_›)

theorem readRegs_unsupported {func : UInt8}
    (hf : func = readHoldingRegisters ∨ func = readInputRegisters) (event : UInt16 → Callback)
    (s : PrModbus σ) : Ensures (Refused func s.buffer) (reqReadRegs event none s) := by
  refine (Ensures.trivial _).bind fun address _ =>
    (s.getBe16_value _).bind fun count hcount => ?_
  unfold busReqRegsGetMany
  simp only
  have hfirst : CheckedFirst func s.buffer ↔ 250 < count.toNat * 2 := by
    rw [CheckedFirst, if_neg (by rcases hf with rfl | rfl <;> decide), if_pos hf, hcount]
  split
  · exact ensures_ok (refused_other s (by decide) (hfirst.mpr ‹_›))
  · exact ensures_ok (refused_missing s fun h1 => absurd (hfirst.mp h1) ‹_›)

theorem setReg_unsupported {h : Handler σ} (hs : h.holdingRegisterSet = none) (s : PrModbus σ)
    (address value : UInt16) : s.setReg h address value = (modbusIllegalFunction, s) := by
  rw [PrModbus.setReg, hs]

theorem setCoil_unsupported {h : Handler σ} (hs : h.coilSet = none) (s : PrModbus σ)
    (address : UInt16) (value : Bool) :
    s.setCoil h address value = (modbusIllegalFunction, s) := by
  rw [PrModbus.setCoil, hs]

theorem writeLoop_unsupported
    {turn : Nat → PrModbus σ → Outcome OutOfBounds (UInt8 × PrModbus σ)} {s : PrModbus σ}
    (hturn : Ensures (fun r => r.1 = modbusIllegalFunction) (turn 0 s)) (n : Nat) :
    Ensures (fun r => r.1 = if n = 0 then modbusOk else modbusIllegalFunction)
      (writeLoop turn n 0 s) := by
  cases n with
  | zero => exact ensures_ok rfl
  | succ n =>
    refine hturn.bind fun ⟨err, s1⟩ herr => ?_
    obtain rfl : err = modbusIllegalFunction := herr
    exact ensures_ok rfl

/-- The answer to a write of `n` values for which there is no callback. -/
theorem echo_unsupported {r : UInt8 × PrModbus σ} {n : Nat}
    (hr : r.1 = if n = 0 then modbusOk else modbusIllegalFunction) (first second : UInt16) :
    Ensures (fun r => r.1 = modbusIllegalFunction ↔ n ≠ 0)
      (if r.1 ≠ modbusOk then .ok (r.1, r.2) else r.2.echo first second) := by
  by_cases hn : n = 0
  · rw [hr, if_pos hn, if_neg (not_not.mpr rfl)]
    refine (Ensures.trivial _).bind fun _ _ => (Ensures.trivial _).bind fun _ _ => ?_
    have hne : modbusOk ≠ modbusIllegalFunction := by decide
    exact ensures_ok (iff_of_false hne (not_not.mpr hn))
  · rw [hr, if_neg hn, if_pos (by decide)]
    exact ensures_ok (iff_of_true rfl hn)

theorem reqWriteMultiple_unsupported {func : UInt8} {Fits : UInt16 → UInt8 → Prop}
    [DecidableRel Fits]
    {turn : UInt16 → Nat → PrModbus σ → Outcome OutOfBounds (UInt8 × PrModbus σ)}
    {size : Nat} {s : PrModbus σ}
    (hturn : ∀ address, Ensures (fun r => r.1 = modbusIllegalFunction) (turn address 0 s))
    (hsize : (s.buffer 6).toNat + 9 = size)
    (hfirst : CheckedFirst func s.buffer ↔
      ¬Fits (be16 (s.buffer 4) (s.buffer 5)) (s.buffer 6) ∨
        (be16 (s.buffer 4) (s.buffer 5)).toNat = 0) :
    Ensures (Refused func s.buffer) (reqWriteMultiple Fits turn size s) := by
  intro r hr
  obtain ⟨hbad, rfl⟩ | ⟨hfits, -, r1, hloop, hecho⟩ := reqWriteMultiple_cases hr rfl rfl
  · exact refused_other s (by decide) (hfirst.mpr (.inl fun h => hbad ⟨h, hsize⟩))
  · have h1 := writeLoop_unsupported (hturn _) _ r1 hloop
    have h2 : r.1 = modbusIllegalFunction ↔ (be16 (s.buffer 4) (s.buffer 5)).toNat ≠ 0 :=
      echo_unsupported h1 _ _ r hecho
    rw [Refused, h2, hfirst, not_or]
    exact ⟨fun h3 => ⟨not_not.mpr hfits, h3⟩, And.right⟩

theorem writeRegisters_unsupported {h : Handler σ} (hs : h.holdingRegisterSet = none)
    {size : Nat} {s : PrModbus σ} (hsize : (s.buffer 6).toNat + 9 = size) :
    Ensures (Refused writeMultipleRegisters s.buffer) (reqWriteMultipleRegisters h size s) := by
  rw [reqWriteMultipleRegisters_eq]
  refine reqWriteMultiple_unsupported (fun address => ?_) hsize .rfl
  refine (Ensures.trivial _).bind fun value _ => ensures_ok ?_
  rw [setReg_unsupported hs]

theorem writeCoils_unsupported {h : Handler σ} (hs : h.coilSet = none)
    {size : Nat} {s : PrModbus σ} (hsize : (s.buffer 6).toNat + 9 = size) :
    Ensures (Refused writeMultipleCoils s.buffer) (reqWriteMultipleCoils h size s) := by
  rw [reqWriteMultipleCoils_eq]
  refine reqWriteMultiple_unsupported (fun address => ?_) hsize .rfl
  refine (Ensures.trivial _).bind fun b _ => ensures_ok ?_
  rw [setCoil_unsupported hs]

theorem busReqSwitch_unsupported {h : Handler σ} {size fuel : Nat} {func : UInt8}
    (hf : h.supports func = false) {s : PrModbus σ}
    (hsize : func = writeMultipleRegisters ∨ func = writeMultipleCoils →
      (s.buffer 6).toNat + 9 = size) :
    Ensures (Refused func s.buffer) (busReqSwitch h size fuel func s) := by
  have hnone {α : Type} {o : Option α} (ho : o.isSome = false) : o = none :=
    Option.not_isSome_iff_eq_none.mp (Bool.eq_false_iff.mp ho)
  unfold Handler.supports at hf
  unfold busReqSwitch
  by_cases h1 : func = readCoils
  · rw [if_pos h1] at hf ⊢
    rw [hnone hf]
    exact readBools_unsupported (.inl h1) _ s
  rw [if_neg h1] at hf ⊢
  by_cases h2 : func = readDiscreteInputs
  · rw [if_pos h2] at hf ⊢
    rw [hnone hf]
    exact readBools_unsupported (.inr h2) _ s
  rw [if_neg h2] at hf ⊢
  by_cases h3 : func = readHoldingRegisters
  · rw [if_pos h3] at hf ⊢
    rw [hnone hf]
    exact readRegs_unsupported (.inl h3) _ s
  rw [if_neg h3] at hf ⊢
  by_cases h4 : func = readInputRegisters
  · rw [if_pos h4] at hf ⊢
    rw [hnone hf]
    exact readRegs_unsupported (.inr h4) _ s
  rw [if_neg h4] at hf ⊢
  by_cases h5 : func = writeSingleRegister
  · rw [if_pos h5]
    rw [if_pos (.inl h5)] at hf
    subst h5
    refine (Ensures.trivial _).bind fun address _ => (Ensures.trivial _).bind fun value _ => ?_
    rw [setReg_unsupported (hnone hf)]
    exact ensures_ok (refused_missing s id)
  rw [if_neg h5]
  by_cases h6 : func = writeSingleCoil
  · rw [if_pos h6]
    subst h6
    rw [if_neg (by decide), if_pos (.inl rfl)] at hf
    refine (Ensures.trivial _).bind fun address _ => (Ensures.trivial _).bind fun value _ => ?_
    simp only [setCoil_unsupported (hnone hf)]
    exact ensures_ok (refused_missing s id)
  rw [if_neg h6]
  by_cases h7 : func = writeMultipleRegisters
  · rw [if_pos h7]
    rw [if_pos (.inr h7)] at hf
    subst h7
    exact writeRegisters_unsupported (hnone hf) (hsize (.inl rfl))
  rw [if_neg h7]
  by_cases h8 : func = writeMultipleCoils
  · rw [if_pos h8]
    subst h8
    rw [if_neg (by decide), if_pos (.inr rfl)] at hf
    exact writeCoils_unsupported (hnone hf) (hsize (.inr rfl))
  rw [if_neg h8]
  rw [if_neg (not_or.mpr ⟨h5, h7⟩), if_neg (not_or.mpr ⟨h6, h8⟩)] at hf
  rw [if_neg (of_decide_eq_false hf)]
  refine ensures_ok (refused_missing s ?_)
  rw [CheckedFirst, if_neg (not_or.mpr ⟨h1, h2⟩), if_neg (not_or.mpr ⟨h3, h4⟩), if_neg h7,
    if_neg h8]
  exact id

/-! ## 4. Main result -/

theorem checkedFirst_congr {func : UInt8} {m m' : Mem UInt8} (h4 : m 4 = m' 4) (h5 : m 5 = m' 5)
    (h6 : m 6 = m' 6) : CheckedFirst func m ↔ CheckedFirst func m' := by
  unfold CheckedFirst
  rw [h4, h5, h6]

theorem answer_bytes {addr b c : UInt8} {data data' : List UInt8}
    (h : withCrc (addr :: b :: data) = withCrc (addr :: c :: data')) :
    b = c ∧ (data ++ modbusCrc16Serialize
      (modbusCrc16Update modbusCrc16Init (addr :: b :: data)))[0]? =
      (data' ++ modbusCrc16Serialize
        (modbusCrc16Update modbusCrc16Init (addr :: c :: data')))[0]? := by
  unfold withCrc at h
  simp only [List.cons_append] at h
  obtain ⟨-, h⟩ := List.cons.inj h
  obtain ⟨rfl, h⟩ := List.cons.inj h
  exact ⟨rfl, by rw [h]⟩

theorem or_ne_self {func : UInt8} (hf : func < 0x80) : func ||| 0x80 ≠ func := by
  intro h
  have h1 := ResponseLemmas.or_and_self func 0x80
  rw [h] at h1
  have h2 : (0x80 : UInt8) ≤ func := by
    rw [← h1, UInt8.le_iff_toNat_le, UInt8.toNat_and]
    exact Nat.and_le_left
  exact absurd hf (UInt8.not_lt.mpr h2)

theorem load_cons_cons {m : Mem UInt8} {k : Nat} (hk : 2 ≤ k) :
    load m 0 k = m 0 :: m 1 :: load m 2 (k - 2) := by
  have h1 : load m 0 k = load m 0 2 ++ load m 2 (k - 2) := by
    have h2 := load_append m 0 2 (k - 2)
    rwa [Nat.add_sub_cancel' hk, Nat.zero_add] at h2
  rw [h1]
  rfl

/-- A response is the right one, unless the function code is unsupported and the request
is not answered for that. -/
theorem answers_iff {h : Handler σ} {fuel : Nat} {s s' : PrModbus σ} {frame : List UInt8}
    (hf : RequestTo s.addr frame) (hknown : KnownCode (frameMem frame 1))
    (hok : busReqRespond h frame.length fuel (s.receives frame) = .ok (true, s')) :
    Answers h s.addr (frameMem frame 1) (load s'.buffer 0 s'.rspSize) ↔
      (h.supports (frameMem frame 1) = false →
        ¬ CheckedFirst (frameMem frame 1) (frameMem frame)) := by
  have h7 := hf.length_ge_seven hknown
  have hcell {i : Nat} (hi : i < frame.length) :
      (s.receives frame).buffer i = frameMem frame i := store_front hi
  obtain ⟨-, err, s1, hsw, hresp⟩ := busReqRespond_bytes hok
  rw [hcell (by omega : 1 < frame.length)] at hsw hresp
  -- The error for a missing callback, if it is missing.
  have hrefused (hsup : h.supports (frameMem frame 1) = false) : err = modbusIllegalFunction ↔
      ¬ CheckedFirst (frameMem frame 1) (frameMem frame) := by
    have hlow {i : Nat} (hi : i < 7) (h2 : 2 ≤ i) :
        store (s.receives frame).buffer 0 [s.addr, frameMem frame 1] i = frameMem frame i :=
      (store_apply_of_ge h2).trans (hcell (by omega))
    have hcheck : CheckedFirst (frameMem frame 1)
          (store (s.receives frame).buffer 0 [s.addr, frameMem frame 1]) ↔
        CheckedFirst (frameMem frame 1) (frameMem frame) :=
      checkedFirst_congr (hlow (by decide) (by decide)) (hlow (by decide) (by decide))
        (hlow (by decide) (by decide))
    have h1 := busReqSwitch_unsupported hsup (fun hmany => ?_) _ hsw
    · exact Iff.trans h1 (not_congr hcheck)
    · show (store (s.receives frame).buffer 0 [s.addr, frameMem frame 1] 6).toNat + 9 = _
      rw [hlow (by decide) (by decide)]
      exact hf.byteCount hmany
  cases hresp with
  | error herr hsize hbytes =>
    rw [hbytes]
    constructor
    · intro hans hsup
      obtain ⟨-, h2⟩ := answer_bytes (hans.unsupported hsup)
      exact (hrefused hsup).mp (Option.some.inj h2)
    · intro hsup
      exact .error err herr fun hno => (hrefused hno).mpr (hsup hno)
  | ok herr hsize h0 h1 hshape hroom hbytes =>
    have hptr := ResponseLemmas.shaped_ptr hshape
    rw [hbytes, load_cons_cons (by omega), h0, h1]
    constructor
    · intro hans hsup
      obtain ⟨h2, -⟩ := answer_bytes (hans.unsupported hsup)
      exact absurd h2.symm (or_ne_self hf.func)
    · intro hsup
      cases hs : h.supports (frameMem frame 1) with
      | true => exact .ok _ hs
      | false =>
        have h2 := (hrefused hs).mpr (hsup hs)
        rw [herr] at h2
        exact absurd h2 (by decide)

theorem answers_ne_nil {h : Handler σ} {addr func : UInt8} {rsp : List UInt8}
    (hans : Answers h addr func rsp) : rsp ≠ [] := by
  cases hans with
  | ok data hs => exact List.cons_ne_nil _ _
  | error err herr hillegal => exact List.cons_ne_nil _ _

/-- A worker that does not handle the request does not answer it. -/
theorem not_answered {h : Handler σ} {k : Nat} {past : UInt8} {n : Node σ} (hn : n.Ready)
    {frame : List UInt8} (hpos : 0 < frame.length)
    (hle : frame.length ≤ bufferSize ∨ k ≤ bufferSize)
    (hreq : ∀ fuel, Unhandled h fuel (reading k frame n)) : ¬ AnsweredOnce h k past frame n := by
  rintro ⟨fuel, n', rsp, hrun, hwritten, -, hans⟩
  rw [work_silent hn hpos hle (hreq fuel) hrun] at hwritten
  exact answers_ne_nil hans (List.self_eq_append_right.mp hwritten)

theorem oversized_unanswered {h : Handler σ} {k : Nat} {past : UInt8} {n : Node σ} (hn : n.Ready)
    {frame : List UInt8} (hf : RequestTo n.bus.addr frame) (hlt : bufferSize < frame.length) :
    ¬ AnsweredOnce h k past frame n := by
  have hk : min k bufferSize ≤ bufferSize := Nat.min_le_right _ _
  rw [← answeredOnce_min]
  refine not_answered hn hf.length_pos (.inr hk) fun fuel => ?_
  by_cases hknown : KnownCode (frameMem frame 1)
  · exact unhandled_unread h fuel n (hf.frame_len hknown) (Nat.lt_of_le_of_lt hk hlt)
  · exact unhandled_unknown h _ fuel n hknown

/-- A request that has been read is answered if its handling returns the right response. -/
theorem answeredOnce_iff {h : Handler σ} {k : Nat} {past : UInt8} {n : Node σ} (hn : n.Ready)
    {frame : List UInt8} (hf : RequestTo n.bus.addr frame) (hfits : frame.length ≤ bufferSize)
    (hknown : KnownCode (frameMem frame 1)) (hk : frame.length ≤ k) :
    AnsweredOnce h k past frame n ↔ ∃ fuel s',
      busReqRespond h frame.length fuel (n.bus.receives frame) = .ok (true, s') ∧
        Answers h n.bus.addr (frameMem frame 1) (load s'.buffer 0 s'.rspSize) := by
  have hbus : (reading k frame n).bus = n.bus.receives frame := by
    rw [reading, List.take_of_length_le hk]
  have hrun (fuel : Nat) : exec (step h) n [.arrive frame, .work k fuel past] =
      (busReqRespond h frame.length fuel (n.bus.receives frame) >>= fun r =>
        .ok ((reading k frame n).handled r)).toOption := by
    rw [work_frame h fuel past hn (hf.frame hfits hknown) hk, busReqHandle_eq, hbus]
  constructor
  · rintro ⟨fuel, n', rsp, hexec, hwritten, hresponses, hans⟩
    rw [hrun] at hexec
    cases hok : busReqRespond h frame.length fuel (n.bus.receives frame) with
    | error e =>
      rw [hok] at hexec
      cases hexec
    | ok r =>
      obtain ⟨called, s'⟩ := r
      rw [hok] at hexec
      cases hexec
      obtain ⟨hcalled, -⟩ := busReqRespond_addr h frame.length fuel _ _ hok
      have haddr : (n.bus.receives frame).buffer 0 = n.bus.addr :=
        (store_front (Nat.lt_of_lt_of_le (by decide) hf.length_ge)).trans hf.addressed
      obtain rfl : called = true := hcalled.trans (decide_eq_true haddr)
      obtain ⟨hptr, -, hle⟩ := busReqRespond_called hok
      rw [(handled_writes hn k frame rfl hptr hle).1] at hwritten
      rw [← List.append_cancel_left hwritten] at hans
      exact ⟨fuel, s', hok, hans⟩
  · rintro ⟨fuel, s', hok, hans⟩
    obtain ⟨hptr, -, hle⟩ := busReqRespond_called hok
    obtain ⟨hwritten, hresponses⟩ := handled_writes hn k frame (r := (true, s')) rfl hptr hle
    refine ⟨fuel, _, _, ?_, hwritten, hresponses, hans⟩
    rw [hrun, hok]
    rfl

end AnswerLemmas

open AnswerLemmas

/-- A request to the unit is answered exactly if it fits in the buffer, its function code is one
with a known length, it has been read from the rx FIFO, its handling returns, and nothing else is
answered for a missing callback. -/
theorem answered_iff (h : Handler σ) (k : Nat) (past : UInt8) {n : Node σ} (hn : n.Ready)
    {frame : List UInt8} (hf : RequestTo n.bus.addr frame) :
    AnsweredOnce h k past frame n ↔ Answerable h k n frame := by
  rcases Nat.lt_or_ge bufferSize frame.length with hlt | hfits
  · exact iff_of_false (oversized_unanswered hn hf hlt) fun hans =>
      absurd hans.fits (Nat.not_le_of_lt hlt)
  by_cases hknown : KnownCode (frameMem frame 1)
  · rcases Nat.lt_or_ge k frame.length with hk | hk
    · refine iff_of_false ?_ fun hans => absurd hans.read (Nat.not_le_of_lt hk)
      exact not_answered hn hf.length_pos (.inl hfits) fun fuel =>
        unhandled_unread h fuel n (hf.frame_len hknown) hk
    · have h4 : (n.bus.receives frame).buffer 4 = frameMem frame 4 :=
        store_front (Nat.lt_of_lt_of_le (by decide) (hf.length_ge_seven hknown))
      rw [answeredOnce_iff hn hf hfits hknown hk]
      constructor
      · rintro ⟨fuel, s', hok, hans⟩
        obtain ⟨hno, hleft⟩ := TerminationLemmas.left_of_returns ⟨fuel, hok⟩
        rw [h4] at hno hleft
        exact ⟨hfits, hknown, hk, (answers_iff hf hknown hok).mp hans, hno, hleft⟩
      · intro hans
        have hno := hans.no_overrun
        have hleft := hans.left
        rw [← h4] at hno hleft
        obtain ⟨⟨called, s'⟩, fuel, hok⟩ := TerminationLemmas.returns_of_left hfits hno hleft
        obtain ⟨hcalled, -⟩ := busReqRespond_addr h frame.length fuel _ _ hok
        have haddr : (n.bus.receives frame).buffer 0 = n.bus.addr :=
          (store_front hf.length_pos).trans hf.addressed
        obtain rfl : called = true := hcalled.trans (decide_eq_true haddr)
        exact ⟨fuel, s', hok, (answers_iff hf hknown hok).mpr hans.supported⟩
  · refine iff_of_false ?_ fun hans => absurd hans.known hknown
    exact not_answered hn hf.length_pos (.inl hfits) fun fuel =>
      unhandled_unknown h k fuel n hknown

namespace AnswerLemmas

/-- The request for the exception status, function code 7. -/
def readStatus : List UInt8 := withCrc [1, 7]

theorem readStatus_request : RequestTo 1 readStatus := by
  constructor <;> decide +kernel

theorem setCoil_request : RequestTo 1 StreamLemmas.setCoil := by
  constructor <;> decide +kernel

theorem started_ready : StreamLemmas.started.Ready := ⟨rfl, rfl, rfl, Nat.le_refl 256⟩

end AnswerLemmas

open AnswerLemmas StreamLemmas in
theorem answered_iff_setCoil :
    started.Ready ∧ RequestTo started.bus.addr setCoil ∧
    (AnsweredOnce oneCoil bufferSize 0 setCoil started ↔
      Answerable oneCoil bufferSize started setCoil) :=
  ⟨started_ready, setCoil_request,
    answered_iff oneCoil bufferSize 0 started_ready setCoil_request⟩

open AnswerLemmas StreamLemmas in
/-- A request of an unsupported function code is not answered: its length is not known, so it never
gets to the `switch` that has the error for it. -/
theorem unsupported_unanswered :
    started.Ready ∧ RequestTo started.bus.addr readStatus ∧
    oneCoil.supports (frameMem readStatus 1) = false ∧
    ¬ AnsweredOnce oneCoil bufferSize 0 readStatus started := by
  refine ⟨started_ready, readStatus_request, by decide, ?_⟩
  have hunknown : ¬ KnownCode (frameMem readStatus 1) := by decide
  exact not_answered started_ready (by decide) (.inr (Nat.le_refl _)) fun fuel =>
    unhandled_unknown oneCoil bufferSize fuel started hunknown

end Picore.Modbus
