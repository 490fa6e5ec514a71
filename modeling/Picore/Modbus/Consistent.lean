import Picore.Modbus.Answer
import Picore.Modbus.Range
import Picore.Modbus.Silence
import Picore.Modbus.Stall

/-!
# Writes of several values

A request to write several coils or registers has their number in it, and the size of the
values behind it. Which frame it is, and where its CRC is, follows from the size alone. The
function codes then compare the two.

Results:
1. `sizeFits_iff`: what the comparisons accept.
2. `reqWriteMultiple_exact`: what a request is answered when the setter does not fail.
3. `accepted_iff`: a request is accepted exactly if its size is that of the values, unless it is
   for registers and has one byte too many, or does not fit in the buffer.
   `odd_size_accepted`: a request with one byte too many.
-/

namespace Picore.Modbus

open Memory Fuel Transition Visit ResponseLemmas RoundTripLemmas AnswerLemmas RangeLemmas
  StallLemmas SilenceLemmas

variable {σ α : Type}

/-! ## 1. Requests -/

def WritesMany (func : UInt8) : Prop := func = writeMultipleCoils ∨ func = writeMultipleRegisters

/-- A CRC-valid request to write several values, as its byte count has it: the length follows from
that count, whatever the count of values says. -/
structure WriteFrame (addr func : UInt8) (address count : UInt16) (byteCount : UInt8)
    (frame : List UInt8) : Prop where
  front : frame.take 7 = [addr, func] ++ be16Bytes address ++ be16Bytes count ++ [byteCount]
  length : frame.length = byteCount.toNat + 9
  crc : crcValid frame = true

/-- The size of `count` values: a bit for each coil, two bytes for each register. -/
def encodedSize (func : UInt8) (count : UInt16) : Nat :=
  if func = writeMultipleCoils then (count.toNat + 7) / 8 else 2 * count.toNat

def SizeFits (func : UInt8) (count : UInt16) (byteCount : UInt8) : Prop :=
  if func = writeMultipleCoils then CoilsFit count byteCount else RegsFit count byteCount

/-- The setter for the function code is there, and never returns an error. -/
structure NeverFails (h : Handler σ) (func : UInt8) : Prop where
  coils : func = writeMultipleCoils →
    ∃ setter, h.coilSet = some setter ∧ ∀ app a v, (setter app a v).1 = modbusOk
  registers : func = writeMultipleRegisters →
    ∃ setter, h.holdingRegisterSet = some setter ∧ ∀ app a v, (setter app a v).1 = modbusOk

def Sets (func : UInt8) : Callback → Prop
  | .coilSet _ _ => func = writeMultipleCoils
  | .holdingRegisterSet _ _ => func = writeMultipleRegisters
  | _ => False

/-- From `n` to `n'` the unit has made exactly one response, `rsp`, and has put all of it into the
tx FIFO. -/
structure Sends (n n' : Node σ) (rsp : List UInt8) : Prop where
  written : n'.written = n.written ++ rsp
  responses : n'.responses = n.responses ++ [rsp]

/-- All values have been set, and the response repeats the address and the count. -/
def Accepted (func : UInt8) (address count : UInt16) (n n' : Node σ) : Prop :=
  Sends n n' (withCrc ([n.bus.addr, func] ++ be16Bytes address ++ be16Bytes count)) ∧
    ∃ calls, n'.bus.calls = n.bus.calls ++ calls ∧ calls.length = count.toNat ∧
      ∀ c ∈ calls, Sets func c

/-- Nothing has been set, and the response says that a value is not allowed. -/
def Rejected (func : UInt8) (n n' : Node σ) : Prop :=
  Sends n n' (withCrc [n.bus.addr, func ||| 0x80, modbusIllegalDataValue]) ∧
    n'.bus.calls = n.bus.calls

/-- The frame is delivered and the worker runs. The request is accepted if its size is that of
the values, and rejected if it is not. -/
def AcceptedExactly (h : Handler σ) (past func : UInt8) (address count : UInt16)
    (byteCount : UInt8) (frame : List UInt8) (n : Node σ) : Prop :=
  ∃ fuel n', exec (step h) n [.arrive frame, .work bufferSize fuel past] = some n' ∧
    (byteCount.toNat = encodedSize func count → Accepted func address count n n') ∧
    (byteCount.toNat ≠ encodedSize func count → Rejected func n n')

/-- The division drops the last bit of the size of registers. -/
theorem sizeFits_iff {func : UInt8} (hfunc : WritesMany func) (count : UInt16) (byteCount : UInt8) :
    SizeFits func count byteCount ↔ byteCount.toNat = encodedSize func count ∨
      func = writeMultipleRegisters ∧ byteCount.toNat = 2 * count.toNat + 1 := by
  have hne : writeMultipleRegisters ≠ writeMultipleCoils := by decide
  rw [SizeFits, encodedSize]
  rcases hfunc with rfl | rfl
  · rw [if_pos rfl, if_pos rfl, CoilsFit, eq_comm]
    exact ⟨.inl, fun h => h.resolve_right fun h1 => hne h1.1.symm⟩
  · rw [if_neg hne, if_neg hne, RegsFit, eq_self_iff_true, true_and]
    omega

section
variable {addr func byteCount : UInt8} {address count : UInt16} {frame : List UInt8}

theorem WriteFrame.split (hf : WriteFrame addr func address count byteCount frame) :
    ∃ rest, frame = [addr, func] ++ be16Bytes address ++ be16Bytes count ++ [byteCount] ++ rest :=
  ⟨frame.drop 7, by rw [← hf.front, List.take_append_drop]⟩

/-- The cells of a frame in a buffer, as much of it as there is room for. -/
theorem WriteFrame.cells (hf : WriteFrame addr func address count byteCount frame) {k : Nat}
    (hk : 7 ≤ k) (m : Mem UInt8) :
    let m := store m 0 (frame.take k)
    m 0 = addr ∧ m 1 = func ∧ m 6 = byteCount ∧ be16 (m 2) (m 3) = address ∧
      be16 (m 4) (m 5) = count := by
  obtain ⟨rest, hrest⟩ := hf.split
  obtain ⟨k, rfl⟩ := Nat.exists_eq_add_of_le hk
  rw [hrest, Nat.add_comm]
  exact ⟨rfl, rfl, rfl, be16_be16Bytes address, be16_be16Bytes count⟩

theorem reqFrameLen_write {m : Mem UInt8} {size : Nat} (hfunc : WritesMany (m 1))
    (hsize : 7 ≤ size) : modbusReqFrameLen m size = (m 6).toNat + 9 := by
  have h2 : ¬ size < 2 := Nat.not_lt_of_le (Nat.le_trans (by decide) hsize)
  rw [modbusReqFrameLen, if_neg h2, if_neg (by rcases hfunc with h | h <;> rw [h] <;> decide),
    if_pos hfunc.symm, if_neg (Nat.not_lt_of_le hsize)]

theorem WriteFrame.length_ge (hf : WriteFrame addr func address count byteCount frame) :
    9 ≤ frame.length := by
  rw [hf.length]
  exact Nat.le_add_left 9 _

/-- A frame that fits in the buffer is one that the parser finds. -/
theorem WriteFrame.request (hf : WriteFrame addr func address count byteCount frame)
    (hfunc : WritesMany func) (hle : frame.length ≤ bufferSize) : RequestFrame frame := by
  have h7 : 7 ≤ frame.length := Nat.le_trans (by decide) hf.length_ge
  obtain ⟨-, h1, h6, -⟩ := hf.cells h7 fun _ => 0
  rw [List.take_length] at h1 h6
  refine ⟨Nat.lt_of_lt_of_le (by decide) h7, hle, ?_, hf.crc⟩
  rw [reqFrameLen_write (by rw [frameMem, h1]; exact hfunc) h7, frameMem, h6, hf.length]

end

namespace ConsistentLemmas

/-! ## 2. The answer -/

/-- What a function code leaves before the response: nothing has happened and a value is not
allowed, or the setter has been called for all of the values. -/
def Exact (fits : Prop) (isCall : Callback → Prop) (s : PrModbus σ) (r : UInt8 × PrModbus σ) :
    Prop :=
  ¬ fits ∧ r = (modbusIllegalDataValue, entered s) ∨
  fits ∧ r.1 = modbusOk ∧
    (∃ calls, r.2.calls = s.calls ++ calls ∧ calls.length = s.count.toNat ∧
      ∀ c ∈ calls, isCall c) ∧
    ∀ s', Sent s r.2 s' → load s'.buffer 0 s'.rspSize =
      withCrc ([s.addr, s.buffer 1] ++ be16Bytes s.start ++ be16Bytes s.count)

/-- A setter that does not fail is called for all of the values, if their size fits. -/
theorem reqWriteMultiple_exact {event : UInt16 → α → Callback}
    {hevent : ∀ {a b : UInt16} {v w : α}, event a v = event b w → a = b}
    {setter : σ → UInt16 → α → UInt8 × σ} (hnever : ∀ app a v, (setter app a v).1 = modbusOk)
    {Fits : UInt16 → UInt8 → Prop} [DecidableRel Fits] {size : Nat} {value : Mem UInt8 → Nat → α}
    {s : PrModbus σ} {turn : UInt16 → Nat → PrModbus σ → Outcome OutOfBounds (UInt8 × PrModbus σ)}
    (haddr : s.buffer 0 = s.addr) (hsize : (s.buffer 6).toNat + 9 = size)
    (hturn : ∀ address, Turn (writeAccess event hevent (some setter) Fits size value s) s.buffer
      address (turn address))
    {isCall : Callback → Prop} (hcall : ∀ a v, isCall (event a v)) :
    Ensures (Exact (Fits s.count (s.buffer 6)) isCall s)
      (reqWriteMultiple Fits turn size (entered s)) := by
  intro r hr
  have hbuf := entered_buffer haddr
  have hcases := reqWriteMultiple_cases hr rfl rfl
  rw [hbuf] at hcases
  obtain ⟨hbad, rfl⟩ | ⟨hfits, -, -⟩ := hcases
  · exact .inl ⟨fun h1 => hbad ⟨h1, hsize⟩, rfl⟩
  cases reqWriteMultiple_result haddr (fun h1 => absurd h1 (Option.some_ne_none setter))
      (fun _ => hturn) r hr with
  | rejected hrejects =>
    rcases hrejects with h1 | h1
    · exact absurd ⟨hfits, hsize⟩ h1
    · cases h1.1
  | walked cs _ hwalked hnormal =>
    have hok : r.1 = modbusOk := by
      by_contra herr
      obtain ⟨k, -, hk⟩ := hwalked.run.fails hwalked.addresses herr
      exact hk (hnever _ _ _)
    refine .inr ⟨hfits, hok, ⟨_, hwalked.calls, ?_, fun c hc => ?_⟩, hnormal hok⟩
    · rw [List.length_map, hwalked.all hok]
    · obtain ⟨d, -, rfl⟩ := List.mem_map.mp hc
      exact hcall d.1 d.2

theorem busReqSwitch_exact {h : Handler σ} {func : UInt8} (hfunc : WritesMany func)
    (hset : NeverFails h func) {size : Nat} {s : PrModbus σ} (haddr : s.buffer 0 = s.addr)
    (hsize : (s.buffer 6).toNat + 9 = size) (fuel : Nat) :
    Ensures (Exact (SizeFits func s.count (s.buffer 6)) (Sets func) s)
      (busReqSwitch h size fuel func (entered s)) := by
  rcases hfunc with rfl | rfl
  · obtain ⟨setter, hsetter, hnever⟩ := hset.coils rfl
    show Ensures _ (reqWriteMultipleCoils h size (entered s))
    rw [reqWriteMultipleCoils_eq]
    have hturn := writeCoil_turn size s (hsetter ▸ Option.some_ne_none setter)
    rw [hsetter] at hturn
    exact reqWriteMultiple_exact hnever haddr hsize hturn fun _ _ => rfl
  · obtain ⟨setter, hsetter, hnever⟩ := hset.registers rfl
    show Ensures _ (reqWriteMultipleRegisters h size (entered s))
    rw [reqWriteMultipleRegisters_eq]
    have hturn := writeReg_turn size s (hsetter ▸ Option.some_ne_none setter)
    rw [hsetter] at hturn
    exact reqWriteMultiple_exact hnever haddr hsize hturn fun _ _ => rfl

/-! ## 3. The worker -/

variable {addr func byteCount : UInt8} {address count : UInt16} {frame : List UInt8}

/-- A frame that fits in the buffer is answered by what the comparison says. -/
theorem handled_exact {h : Handler σ} {past : UInt8} {n n' : Node σ} (hn : n.Ready)
    (hfunc : WritesMany func) (hset : NeverFails h func)
    (hf : WriteFrame n.bus.addr func address count byteCount frame)
    (hle : frame.length ≤ bufferSize) {fuel : Nat}
    (hrun : exec (step h) n [.arrive frame, .work bufferSize fuel past] = some n') :
    SizeFits func count byteCount ∧ Accepted func address count n n' ∨
      ¬ SizeFits func count byteCount ∧ Rejected func n n' := by
  have hbus : (reading bufferSize frame n).bus = n.bus.receives frame := by
    rw [reading, List.take_of_length_le hle]
  rw [work_frame h fuel past hn (hf.request hfunc hle) hle, toOption_eq_some, busReqHandle_eq,
    hbus] at hrun
  obtain ⟨⟨called, s'⟩, hok, hn'⟩ := bind_eq_ok.mp hrun
  cases hn'
  have h7 : 7 ≤ frame.length := Nat.le_trans (by decide) hf.length_ge
  obtain ⟨haddr, h1, h6, hstart, hcount⟩ := hf.cells h7 n.bus.buffer
  rw [List.take_length] at haddr h1 h6 hstart hcount
  have haddr : (n.bus.receives frame).buffer 0 = (n.bus.receives frame).addr := haddr
  have hfunc1 : (n.bus.receives frame).buffer 1 = func := h1
  obtain rfl : called = true :=
    (busReqRespond_addr h frame.length fuel _ _ hok).1.trans (decide_eq_true haddr)
  obtain ⟨hptr, -, hsize⟩ := busReqRespond_called hok
  obtain ⟨hwritten, hresponses⟩ := handled_writes hn bufferSize frame (r := (true, s')) rfl hptr
    hsize
  have hcalls : ((reading bufferSize frame n).handled (true, s')).bus.calls = s'.calls :=
    (modbusTxTry_same _).2.2.1
  obtain ⟨-, err, s1, hsw, hresp⟩ := busReqRespond_bytes hok
  have hsame := (busReqRespond_calls haddr hok hsw).1
  have hsw : busReqSwitch h frame.length fuel ((n.bus.receives frame).buffer 1)
      (entered (n.bus.receives frame)) = .ok (err, s1) := hsw
  rw [hfunc1] at hsw hresp
  have hbytes : ((n.bus.receives frame).buffer 6).toNat + 9 = frame.length :=
    (congrArg (fun b : UInt8 => b.toNat + 9) h6).trans hf.length.symm
  have hexact := busReqSwitch_exact hfunc hset haddr hbytes fuel _ hsw
  rw [Exact, show (n.bus.receives frame).count = count from hcount,
    show (n.bus.receives frame).buffer 6 = byteCount from h6,
    show (n.bus.receives frame).start = address from hstart, hfunc1] at hexact
  rcases hexact with ⟨hbad, heq⟩ | ⟨hfits, herr, ⟨calls, hlog, hlen, hsets⟩, hsent⟩
  · obtain ⟨rfl, rfl⟩ := Prod.mk.inj heq
    cases hresp with
    | error _ _ hload =>
      rw [hload] at hwritten hresponses
      exact .inr ⟨hbad, ⟨hwritten, hresponses⟩, hcalls.trans hsame⟩
    | ok herr => exact absurd herr illegal_data_value_ne
  · cases hresp with
    | error herr' => exact absurd herr herr'
    | ok _ hrsp h0 h1 _ _ hload =>
      rw [hsent s' ⟨hrsp, h0, h1.trans hfunc1.symm, hload⟩] at hwritten hresponses
      exact .inl ⟨hfits, ⟨hwritten, hresponses⟩, calls, (hcalls.trans hsame).trans hlog, hlen,
        hsets⟩

/-- A frame that does not fit in the buffer is dropped. -/
theorem oversized_silent {h : Handler σ} {past : UInt8} {n n' : Node σ} (hn : n.Ready)
    (hfunc : WritesMany func) (hf : WriteFrame addr func address count byteCount frame)
    (hlt : bufferSize < frame.length) {fuel : Nat}
    (hrun : exec (step h) n [.arrive frame, .work bufferSize fuel past] = some n') :
    n'.written = n.written := by
  obtain ⟨n1, hn1, hwork⟩ := Option.bind_eq_some_iff.mp hrun
  cases hn1
  obtain ⟨n2, hwork, hn2⟩ := Option.bind_eq_some_iff.mp hwork
  cases hn2
  obtain ⟨-, hok⟩ := step_work hwork
  let n1 : Node σ := { n.arrived frame with worker := false }
  have hn1 : onWork h bufferSize fuel past n1 = modbusRxTry h bufferSize fuel past n1 :=
    if_neg (not_not.mpr hn.rsp_size)
  let room := min bufferSize (bufferSize - n.bus.ptr)
  have hroom : (n.rx ++ frame).take room = frame.take bufferSize := by
    show (n.rx ++ frame).take (min bufferSize (bufferSize - n.bus.ptr)) = _
    rw [hn.ptr, hn.rx]
    rfl
  have hbuf : (n1.received bufferSize).bus.buffer =
      store n.bus.buffer 0 (frame.take bufferSize) := by
    show store n.bus.buffer n.bus.ptr ((n.rx ++ frame).take room) = _
    rw [hn.ptr, hroom]
  have hptr : (n1.received bufferSize).bus.ptr = bufferSize := by
    show n.bus.ptr + ((n.rx ++ frame).take room).length = _
    rw [hn.ptr, hroom, List.length_take, Nat.zero_add]
    exact Nat.min_eq_left (Nat.le_of_lt hlt)
  rw [hn1, modbusRxTry] at hok
  obtain ⟨-, h1, h6, -⟩ := hf.cells (k := bufferSize) (by decide) n.bus.buffer
  have hlen : bufferSize < modbusReqFrameLen (n1.received bufferSize).bus.buffer
      (n1.received bufferSize).bus.ptr := by
    rw [hbuf, hptr, reqFrameLen_write (by rw [h1]; exact hfunc) (by decide), h6, ← hf.length]
    exact hlt
  rw [reqTry_oversized h fuel hlen, bind_ok] at hok
  cases hok
  rfl

/-- A frame that fits in the buffer comes in and is handled: the run of the worker returns with
enough fuel. -/
theorem write_runs {h : Handler σ} {past : UInt8} {n : Node σ} (hn : n.Ready)
    (hfunc : WritesMany func) (hf : WriteFrame n.bus.addr func address count byteCount frame)
    (hle : frame.length ≤ bufferSize) :
    ∃ n' fuel, exec (step h) n [.arrive frame, .work bufferSize fuel past] = some n' := by
  have hbus : (reading bufferSize frame n).bus = n.bus.receives frame := by
    rw [reading, List.take_of_length_le hle]
  have h7 : 7 ≤ frame.length := Nat.le_trans (by decide) hf.length_ge
  obtain ⟨haddr, h1, -⟩ := hf.cells h7 n.bus.buffer
  rw [List.take_length] at haddr h1
  have haddr : (n.bus.receives frame).buffer 0 = (n.bus.receives frame).addr := haddr
  have hfunc1 : (n.bus.receives frame).buffer 1 = func := h1
  obtain ⟨s', fuel, hok⟩ : ∃ s', Returns
      (fun fuel => busReqRespond h frame.length fuel (n.bus.receives frame)) (true, s') := by
    rcases hfunc with rfl | rfl
    · have hacc : Accesses h frame.length (n.bus.receives frame) Bool writeMultipleCoils _ :=
        .setCoils
      exact accesses_returns hle (hfunc1.symm ▸ hacc) haddr
    · have hacc : Accesses h frame.length (n.bus.receives frame) UInt16 writeMultipleRegisters _ :=
        .setRegisters
      exact accesses_returns hle (hfunc1.symm ▸ hacc) haddr
  refine ⟨(reading bufferSize frame n).handled (true, s'), fuel, ?_⟩
  rw [work_frame h fuel past hn (hf.request hfunc hle) hle, toOption_eq_some, busReqHandle_eq,
    hbus]
  exact bind_eq_ok.mpr ⟨_, hok, rfl⟩

theorem ne_append_withCrc (l data : List UInt8) : l ≠ l ++ withCrc data := by
  intro h
  have hnil : withCrc data = [] := List.self_eq_append_right.mp h
  have hlen := congrArg List.length (List.append_eq_nil_iff.mp hnil).2
  rw [length_modbusCrc16Serialize] at hlen
  cases hlen

end ConsistentLemmas

open ConsistentLemmas

/-! ## 4. Main result -/

/-- A request to write several values is accepted exactly if its size is that of the values, iff it
fits in the buffer and is not one for registers with one byte too many. The code compares the count
of registers with half the byte count, which drops an odd byte. -/
theorem accepted_iff {h : Handler σ} (past : UInt8) {n : Node σ} (hn : n.Ready)
    {func byteCount : UInt8} {address count : UInt16} {frame : List UInt8}
    (hfunc : WritesMany func) (hset : NeverFails h func)
    (hf : WriteFrame n.bus.addr func address count byteCount frame) :
    AcceptedExactly h past func address count byteCount frame n ↔
      byteCount.toNat + 9 ≤ bufferSize ∧
        ¬ (func = writeMultipleRegisters ∧ byteCount.toNat = 2 * count.toNat + 1) := by
  have hodd : func = writeMultipleRegisters → byteCount.toNat = 2 * count.toNat + 1 →
      byteCount.toNat ≠ encodedSize func count := by
    rintro rfl hsize heq
    rw [encodedSize, if_neg (by decide)] at heq
    omega
  rw [← hf.length]
  rcases Nat.lt_or_ge bufferSize frame.length with hlt | hle
  · refine iff_of_false ?_ fun h1 => absurd h1.1 (Nat.not_le_of_lt hlt)
    rintro ⟨fuel, n', hrun, hacc, hrej⟩
    have hsilent := oversized_silent hn hfunc hf hlt hrun
    by_cases hsize : byteCount.toNat = encodedSize func count
    · exact ne_append_withCrc _ _ (hsilent.symm.trans (hacc hsize).1.written)
    · exact ne_append_withCrc _ _ (hsilent.symm.trans (hrej hsize).1.written)
  · constructor
    · rintro ⟨fuel, n', hrun, -, hrej⟩
      refine ⟨hle, fun ⟨hregs, hsize⟩ => ?_⟩
      have hrejected := hrej (hodd hregs hsize)
      have hfits := (sizeFits_iff hfunc count byteCount).mpr (.inr ⟨hregs, hsize⟩)
      rcases handled_exact hn hfunc hset hf hle hrun with ⟨-, haccepted, -⟩ | ⟨hbad, -⟩
      · have hsame := List.append_cancel_left
          (haccepted.written.symm.trans hrejected.1.written)
        exact absurd (congrArg List.length hsame) (by simp [withCrc])
      · exact hbad hfits
    · rintro ⟨-, hnot⟩
      obtain ⟨n', fuel, hrun⟩ : ∃ n' fuel,
          exec (step h) n [.arrive frame, .work bufferSize fuel past] = some n' :=
        write_runs hn hfunc hf hle
      have hfits := sizeFits_iff hfunc count byteCount
      refine ⟨fuel, n', hrun, fun hsize => ?_, fun hsize => ?_⟩
      · rcases handled_exact hn hfunc hset hf hle hrun with ⟨-, hacc⟩ | ⟨hbad, -⟩
        · exact hacc
        · exact absurd (hfits.mpr (.inl hsize)) hbad
      · rcases handled_exact hn hfunc hset hf hle hrun with ⟨hgood, -⟩ | ⟨-, hrej⟩
        · exact absurd (hfits.mp hgood) (not_or.mpr ⟨hsize, hnot⟩)
        · exact hrej

namespace ConsistentLemmas

/-- A handler with a holding register that can only be written. -/
def oneSetter : Handler Unit :=
  ⟨none, none, none, none, none, some fun app _ _ => (modbusOk, app), none⟩

theorem oneSetter_never : NeverFails oneSetter writeMultipleRegisters :=
  ⟨fun h => absurd h (by decide), fun _ => ⟨_, rfl, fun _ _ _ => rfl⟩⟩

/-- The request to write holding register 0, and one byte too many of it. -/
def writeRegister : List UInt8 := withCrc [1, 16, 0, 0, 0, 1, 2, 0x12, 0x34]

def writeOddSize : List UInt8 := withCrc [1, 16, 0, 0, 0, 1, 3, 0x12, 0x34, 0x56]

theorem writeRegister_frame :
    WriteFrame StreamLemmas.started.bus.addr writeMultipleRegisters 0 1 2 writeRegister :=
  ⟨by decide +kernel, by decide +kernel, by decide +kernel⟩

theorem writeOddSize_frame :
    WriteFrame StreamLemmas.started.bus.addr writeMultipleRegisters 0 1 3 writeOddSize :=
  ⟨by decide +kernel, by decide +kernel, by decide +kernel⟩

end ConsistentLemmas

open ConsistentLemmas StreamLemmas AnswerLemmas in
theorem accepted_iff_writeRegister :
    started.Ready ∧
    (AcceptedExactly oneSetter 0 writeMultipleRegisters 0 1 2 writeRegister started ↔
      (2 : UInt8).toNat + 9 ≤ bufferSize ∧
        ¬ (writeMultipleRegisters = writeMultipleRegisters ∧
          (2 : UInt8).toNat = 2 * (1 : UInt16).toNat + 1)) :=
  ⟨started_ready, accepted_iff 0 started_ready (.inr rfl) oneSetter_never writeRegister_frame⟩

open ConsistentLemmas StreamLemmas AnswerLemmas in
/-- A request to write one register, with three bytes, sets the register. -/
theorem odd_size_accepted :
    started.Ready ∧ NeverFails oneSetter writeMultipleRegisters ∧
    WriteFrame started.bus.addr writeMultipleRegisters 0 1 3 writeOddSize ∧
    (∃ n', exec (step oneSetter) started [.arrive writeOddSize, .work bufferSize 0 0] = some n' ∧
      n'.written = withCrc [1, 16, 0, 0, 0, 1] ∧
      n'.bus.calls = [.holdingRegisterSet 0 0x1234]) ∧
    ¬ AcceptedExactly oneSetter 0 writeMultipleRegisters 0 1 3 writeOddSize started := by
  have hrun : (exec (step oneSetter) started [.arrive writeOddSize, .work bufferSize 0 0]).map
      (fun n => (n.written, n.bus.calls)) =
        some (withCrc [1, 16, 0, 0, 0, 1], [.holdingRegisterSet 0 0x1234]) := by
    decide +kernel
  obtain ⟨n', hn', hfields⟩ := Option.map_eq_some_iff.mp hrun
  obtain ⟨hwritten, hcalls⟩ := Prod.mk.inj hfields
  refine ⟨started_ready, oneSetter_never, writeOddSize_frame, ⟨n', hn', hwritten, hcalls⟩, ?_⟩
  rintro ⟨fuel, n'', hn'', -, hrej⟩
  have hrejected := hrej (by decide)
  have hfits : SizeFits writeMultipleRegisters 1 3 :=
    (sizeFits_iff (.inr rfl) 1 3).mpr (.inr ⟨rfl, rfl⟩)
  rcases handled_exact started_ready (.inr rfl) oneSetter_never writeOddSize_frame (by decide) hn''
    with ⟨-, -, calls, hlog, hlen, -⟩ | ⟨hbad, -⟩
  · rw [hrejected.2] at hlog
    have hnil : calls = [] := List.append_cancel_left (hlog.symm.trans (List.append_nil _).symm)
    rw [hnil] at hlen
    exact absurd hlen (by decide)
  · exact hbad hfits

end Picore.Modbus
