import Picore.Modbus.Server
import Mathlib.Data.Fintype.Basic
import Mathlib.Data.Set.Finite.Basic

/-!
# Units on one line

A client asks the units on a line, one request at a time. Every unit hears each request, and each
response of another one: the parsers of `modbus.c` are there for both. A frame is heard as a whole.
The units run in any order, and the worker of a unit reads the whole of its rx FIFO.

Nothing in `modbus.c` holds a frame back until the units that hear it have handled the one before,
and a unit that is late by a frame drops the next request with it. So the results are about the
runs in which no unit is late, `InTime`.

Results:
1. `answers`, `served`: what the client hears, and what becomes of the applications.
2. `work_foreign`, `work_own`: what a unit does with the frames of others and with its own.
3. `net_answers`: the invariant over every order of steps that are in time.
4. `net_answered`: every request is answered in the end.
5. `inTime_needed`: a late unit, and a line that is stuck.
-/

namespace Picore.Modbus

open Memory Fuel Transition StreamLemmas RoundTripLemmas ServerLemmas

variable {σ ι : Type}

/-! ## 1. The line -/

def Node.unsent (n : Node σ) : List UInt8 := n.written.drop (n.written.length - n.used)

/-- Units on a line. `asked` are the requests of the client, and `heard` the frames that it
has heard. -/
structure Net (ι σ : Type) where
  unit : ι → Node σ
  asked : List (ι × Request)
  heard : List (List UInt8)

/-- The labels of the steps: the client sends a request on the line, and each unit has its two
tasks, the deadline of `clear`, and the transport that sends its answers. -/
inductive NetAct (ι : Type)
  /-- The client sends a request to a unit. -/
  | ask (i : ι) (q : Request)
  /-- The worker of a unit runs. -/
  | work (i : ι) (fuel : Nat) (past : UInt8)
  /-- The deadline of `clear` of a unit passes. -/
  | expire (i : ι)
  /-- `clear` of a unit runs. -/
  | clear (i : ι)
  /-- The transport of a unit sends what is in its tx FIFO. -/
  | transmit (i : ι)

section
variable [DecidableEq ι]

def Net.set (s : Net ι σ) (i : ι) (n : Node σ) : Net ι σ :=
  { s with unit := Function.update s.unit i n }

theorem Net.set_self (s : Net ι σ) (i : ι) (n : Node σ) : (s.set i n).unit i = n :=
  Function.update_self _ _ _

theorem Net.set_other (s : Net ι σ) {i j : ι} (hj : j ≠ i) (n : Node σ) :
    (s.set i n).unit j = s.unit j :=
  Function.update_of_ne hj _ _

def Net.asking (addr : ι → UInt8) (s : Net ι σ) (i : ι) (q : Request) : Net ι σ where
  unit j := (s.unit j).arrived (q.encode (addr i))
  asked := s.asked ++ [(i, q)]
  heard := s.heard

/-- The line after a unit has sent a response. The other units hear it, and the client. -/
def Net.sent (s : Net ι σ) (i : ι) : Net ι σ where
  unit j :=
    if j = i then (s.unit i).drained (s.unit i).used else (s.unit j).arrived (s.unit i).unsent
  asked := s.asked
  heard := s.heard ++ [(s.unit i).unsent]

/-- One step. The client asks when it has heard an answer to all that it has asked. Nothing else
waits for anything: a unit takes a step of its own whenever `step` has one, and a response is sent
as soon as it is in the tx FIFO. -/
def Net.step (h : ι → Handler σ) (addr : ι → UInt8) (s : Net ι σ) : NetAct ι → Option (Net ι σ)
  | .ask i q =>
    if q.Fits ∧ s.heard.length = s.asked.length then some (s.asking addr i q) else none
  | .work i fuel past =>
    (Modbus.step (h i) (s.unit i) (.work bufferSize fuel past)).map (s.set i)
  | .expire i => (Modbus.step (h i) (s.unit i) .expire).map (s.set i)
  | .clear i => (Modbus.step (h i) (s.unit i) .clear).map (s.set i)
  | .transmit i => if (s.unit i).used ≠ 0 then some (s.sent i) else none

/-- Whoever hears the frame that a step puts on the line has handled the frames before it. In runs
whose steps are all in time no unit ever holds a part of a frame, so `clear` is never armed, and
neither `expire` nor `clear` is ever enabled (`Phase.clear_eq`). -/
def InTime (s : Net ι σ) : NetAct ι → Prop
  | .ask _ _ => ∀ j, (s.unit j).rx = []
  | .transmit i => ∀ j, j ≠ i → (s.unit j).rx = []
  | .work _ _ _ | .expire _ | .clear _ => True

instance [Fintype ι] (s : Net ι σ) : DecidablePred (InTime s)
  | .ask _ _ => inferInstanceAs (Decidable (∀ j, (s.unit j).rx = []))
  | .transmit i => inferInstanceAs (Decidable (∀ j, j ≠ i → (s.unit j).rx = []))
  | .work _ _ _ | .expire _ | .clear _ => .isTrue trivial

/-- Units that have just been started. Each one's tx FIFO has room for any response. -/
structure Net.Init (addr : ι → UInt8) (s : Net ι σ) : Prop where
  unit : ∀ i, (s.unit i).Idle
  clear : ∀ i, (s.unit i).clear = .idle
  addr : ∀ i, (s.unit i).bus.addr = addr i
  calls : ∀ i, (s.unit i).bus.calls = []
  asked : s.asked = []
  heard : s.heard = []

/-- Units that go on from `s0`, under every order of steps. -/
def net (h : ι → Handler σ) (addr : ι → UInt8) (s0 : Net ι σ) : Lts (Net ι σ) (NetAct ι) :=
  Lts.ofFun (· = s0) (Net.step h addr)

/-- The applications, with the callbacks that have been made to them. -/
abbrev Apps (ι σ : Type) := ι → σ × List Callback

def replyOf (h : ι → Handler σ) (apps : Apps ι σ) (r : ι × Request) : Reply σ :=
  serve (h r.1) r.2 (apps r.1).1

def serveOne (h : ι → Handler σ) (apps : Apps ι σ) (r : ι × Request) : Apps ι σ :=
  Function.update apps r.1
    ((replyOf h apps r).app, (apps r.1).2 ++ (replyOf h apps r).calls)

/-- The applications after the frames `rs`, each of which the unit that it is for has handled. -/
def served (h : ι → Handler σ) (apps : Apps ι σ) (rs : List (ι × Request)) : Apps ι σ :=
  rs.foldl (serveOne h) apps

def answer (h : ι → Handler σ) (addr : ι → UInt8) (apps : Apps ι σ) (r : ι × Request) :
    List UInt8 :=
  (replyOf h apps r).rsp.encode (addr r.1) r.2.func

/-- The responses that the client is to get for the frames, one for each, with each application as
the frames before have left it. -/
def answers (h : ι → Handler σ) (addr : ι → UInt8) : Apps ι σ → List (ι × Request) →
    List (List UInt8)
  | _, [] => []
  | apps, r :: rs => answer h addr apps r :: answers h addr (serveOne h apps r) rs

/-- The applications of all units, with the calls that each has got. -/
def Net.apps (s : Net ι σ) : Apps ι σ := fun i => ((s.unit i).bus.app, (s.unit i).bus.calls)

end

namespace NetworkLemmas

/-! ## 2. One unit -/

/-- A unit with nothing under way but the frame `rx`, which it has heard and not handled yet. Its
address is `a`, and `app` is its application with the calls so far. -/
def Listening (a : UInt8) (app : σ × List Callback) (rx : List UInt8) (n : Node σ) : Prop :=
  ∃ (m : Node σ) (w : Bool), m.Idle ∧ n = holding m [] rx w .idle ∧ m.bus.addr = a ∧
    (m.bus.app, m.bus.calls) = app ∧ (rx ≠ [] → w = true)

/-- A unit that has a response in its tx FIFO. -/
structure Answering (a : UInt8) (app : σ × List Callback) (rsp : List UInt8) (n : Node σ) :
    Prop where
  drained : Listening a app [] (n.drained n.used)
  used : n.used ≠ 0
  worker : n.worker = false
  unsent : n.unsent = rsp

section
variable {h : Handler σ} {a : UInt8} {app : σ × List Callback} {rx frame : List UInt8}
  {n n' : Node σ}

theorem Listening.rx_eq (hn : Listening a app rx n) : n.rx = rx := by
  obtain ⟨m, w, -, rfl, -, -, -⟩ := hn
  rfl

theorem Listening.used_eq (hn : Listening a app rx n) : n.used = 0 := by
  obtain ⟨m, w, hm, rfl, -, -, -⟩ := hn
  exact hm.used

theorem Listening.clear_eq (hn : Listening a app rx n) : n.clear = .idle := by
  obtain ⟨m, w, -, rfl, -, -, -⟩ := hn
  rfl

theorem Listening.app_eq (hn : Listening a app rx n) : (n.bus.app, n.bus.calls) = app := by
  obtain ⟨m, w, -, rfl, -, happ, -⟩ := hn
  exact happ

theorem Listening.worker (hn : Listening a app rx n) (hrx : rx ≠ []) : n.worker = true := by
  obtain ⟨m, w, -, rfl, -, -, hw⟩ := hn
  exact hw hrx

/-- A frame wakes a unit that has handled the one before. -/
theorem Listening.arrived (hn : Listening a app [] n) (bytes : List UInt8) :
    Listening a app bytes (n.arrived bytes) := by
  obtain ⟨m, w, hm, rfl, haddr, happ, -⟩ := hn
  refine ⟨m, w || !bytes.isEmpty, hm, rfl, haddr, happ, fun hne => ?_⟩
  rw [List.isEmpty_eq_false_iff.mpr hne, Bool.not_false, Bool.or_true]

theorem Answering.rx_eq {rsp : List UInt8} (hn : Answering a app rsp n) : n.rx = [] :=
  hn.drained.rx_eq

theorem Answering.clear_eq {rsp : List UInt8} (hn : Answering a app rsp n) : n.clear = .idle :=
  hn.drained.clear_eq

/-- A frame that another unit is asked with, or answers with. -/
structure Foreign (a : UInt8) (frame : List UInt8) : Prop where
  length_pos : 0 < frame.length
  length_le : frame.length ≤ bufferSize
  crc : crcValid frame = true
  front : frameMem frame 0 ≠ a
  found : RequestFrame frame ∨ ∀ past m, load m 0 frame.length = frame →
    modbusRspFrameLen past m frame.length = frame.length

def emptied (n : Node σ) : Node σ := { n with bus := { n.bus with ptr := 0 } }

theorem reset_emptied (hsize : n.bus.rspSize = 0) : n.reset = emptied n := by
  simp only [Node.reset, emptied, hsize]

/-- A request for another unit is dropped, and so is what seems to be one. -/
theorem modbusReqTry_foreign (h : Handler σ) (fuel : Nat) (hsize : n.bus.rspSize = 0)
    (hfront : n.bus.buffer 0 ≠ n.bus.addr) :
    modbusReqTry h fuel n = .ok (false, n) ∨ modbusReqTry h fuel n = .ok (true, emptied n) := by
  rw [modbusReqTry]
  simp only
  split
  · exact .inl rfl
  split
  · exact .inr rfl
  split
  · exact .inl rfl
  split
  · exact .inl rfl
  · refine .inr ?_
    rw [busReqHandle, busReqRespond_other h _ fuel hfront, bind_ok]
    show Except.ok (true, n.reset) = _
    rw [reset_emptied hsize]

/-- What the worker reads from an idle unit's rx FIFO. -/
theorem step_listening {m : Node σ} (hm : m.Idle) {w : Bool} {fuel : Nat} {past : UInt8}
    (hle : rx.length ≤ bufferSize)
    (hstep : step h (holding m [] rx w .idle) (.work bufferSize fuel past) = some n') : (do
      let (useful, n) ← modbusReqTry h fuel (holding m rx [] false .idle)
      if useful then .ok n
      else
        let (useful, n) := modbusRspTry past n
        if useful then .ok n
        else if n.bus.ptr ≠ 0 then .ok n.execClear
        else .ok n : Outcome ..) = .ok n' := by
  obtain ⟨-, hwork⟩ := step_work hstep
  have hread := @onWork_holding σ h fuel past m hm [] rx [] .idle hle (.inr rfl)
  rw [List.append_nil] at hread
  exact hread.symm.trans hwork

theorem work_nothing {fuel : Nat} {past : UInt8} (hn : Listening a app [] n)
    (hstep : step h n (.work bufferSize fuel past) = some n') : Listening a app [] n' := by
  obtain ⟨m, w, hm, rfl, haddr, happ, -⟩ := hn
  have hwork := step_listening hm (Nat.zero_le _) hstep
  have hreq : modbusReqTry h fuel (holding m [] [] false .idle) =
      .ok (false, holding m [] [] false .idle) := rfl
  rw [hreq, bind_ok] at hwork
  cases hwork
  exact ⟨m, false, hm, rfl, haddr, happ, fun hne => absurd rfl hne⟩

/-- An idle unit that has dropped a frame is listening, with nothing of the frame left in its
buffer. -/
theorem listening_emptied {m : Node σ} (hm : m.Idle) (haddr : m.bus.addr = a)
    (happ : (m.bus.app, m.bus.calls) = app) (frame : List UInt8) :
    Listening a app [] (emptied (holding m frame [] false .idle)) := by
  refine ⟨{ m with bus := { buffered m.bus frame with ptr := 0 } }, false,
    ⟨rfl, hm.rsp_size, hm.rx, hm.used, hm.worker, hm.room⟩, ?_, haddr, happ,
    fun hne => absurd rfl hne⟩
  unfold emptied holding
  rw [buffered_nil rfl]

theorem modbusReqTry_frame (h : Handler σ) (fuel : Nat) (m : Node σ) (hframe : RequestFrame frame)
    (c : ClearTask) :
    modbusReqTry h fuel (holding m frame [] false c) = (do
      let n ← busReqHandle h frame.length fuel (holding m frame [] false c)
      .ok (true, n)) := by
  have hlen : modbusReqFrameLen (holding m frame [] false c).bus.buffer
      (holding m frame [] false c).bus.ptr = frame.length := by
    have h1 := hframe.reqFrameLen [] m.bus.buffer
    rwa [List.append_nil] at h1
  have hptr : ¬ frame.length > (holding m frame [] false c).bus.ptr :=
    Nat.not_lt_of_le (Nat.le_refl _)
  have hload : load (holding m frame [] false c).bus.buffer 0 frame.length = frame :=
    load_store_self m.bus.buffer 0 frame
  rw [modbusReqTry]
  simp only
  rw [hlen, if_neg (Nat.ne_of_gt hframe.length_pos), if_neg (Nat.not_lt_of_le hframe.length_le),
    if_neg hptr, hload, if_neg (not_not.mpr hframe.crc)]

theorem onWork_foreign (h : Handler σ) (fuel : Nat) (past : UInt8) {m : Node σ} (hm : m.Idle)
    (hframe : Foreign m.bus.addr frame) :
    onWork h bufferSize fuel past (holding m [] frame false .idle) =
      .ok (emptied (holding m frame [] false .idle)) := by
  have hsize : (holding m frame [] false .idle).bus.rspSize = 0 := hm.rsp_size
  have hfront : (holding m frame [] false .idle).bus.buffer 0 ≠
      (holding m frame [] false .idle).bus.addr := by
    have h0 : store m.bus.buffer 0 frame 0 = frameMem frame 0 := store_front hframe.length_pos
    show store m.bus.buffer 0 frame 0 ≠ m.bus.addr
    rw [h0]
    exact hframe.front
  have hread := @onWork_holding σ h fuel past m hm [] frame [] .idle hframe.length_le (.inr rfl)
  rw [List.append_nil, List.nil_append] at hread
  rw [hread]
  rcases hframe.found with hfound | hfound
  · have hhandle : busReqHandle h frame.length fuel (holding m frame [] false .idle) =
        .ok (holding m frame [] false .idle).reset := by
      rw [busReqHandle, busReqRespond_other h _ fuel hfront]
      rfl
    rw [modbusReqTry_frame h fuel m hfound, hhandle, reset_emptied hsize]
    rfl
  rcases modbusReqTry_foreign h fuel hsize hfront with hreq | hreq
  · have hload : load (holding m frame [] false .idle).bus.buffer 0 frame.length = frame :=
      load_store_self m.bus.buffer 0 frame
    have hrsp : modbusRspTry past (holding m frame [] false .idle) =
        (true, (holding m frame [] false .idle).reset) := by
      refine ResponseLemmas.rspTry_of_frameLen hframe.length_pos hframe.length_le rfl
        (hfound past _ hload) ?_
      rw [hload]
      exact hframe.crc
    rw [hreq, bind_ok]
    simp only [hrsp, Bool.false_eq_true, if_false, if_true]
    rw [reset_emptied hsize]
  · rw [hreq, bind_ok]
    rfl

theorem work_foreign {fuel : Nat} {past : UInt8} (hframe : Foreign a frame)
    (hn : Listening a app frame n)
    (hstep : step h n (.work bufferSize fuel past) = some n') : Listening a app [] n' := by
  obtain ⟨m, w, hm, rfl, rfl, happ, -⟩ := hn
  obtain ⟨-, hwork⟩ := step_work hstep
  cases hwork.symm.trans (onWork_foreign h fuel past hm hframe)
  exact listening_emptied hm rfl happ frame

/-- The worker of a unit that has heard such a frame can run. -/
theorem foreign_enabled (h : Handler σ) (hframe : Foreign a frame) (hn : Listening a app frame n) :
    ∃ n', step h n (.work bufferSize 0 0) = some n' := by
  have hworker := hn.worker (List.ne_nil_of_length_pos hframe.length_pos)
  obtain ⟨m, w, hm, rfl, rfl, -, -⟩ := hn
  refine ⟨emptied (holding m frame [] false .idle), ?_⟩
  rw [step, if_pos hworker]
  exact toOption_eq_some.mpr (onWork_foreign h 0 0 hm hframe)

/-! ### Own requests -/

theorem reqFrameLen_writeRequest {addr func : UInt8}
    (hmany : func = writeMultipleRegisters ∨ func = writeMultipleCoils) (address count : UInt16)
    {payload : List UInt8} (hroom : payload.length + 9 ≤ bufferSize) {size : Nat}
    (hsize : (writeRequest addr func address count payload).length = size) :
    modbusReqFrameLen (frameMem (writeRequest addr func address count payload)) size = size := by
  have h1 : frameMem (writeRequest addr func address count payload) 1 = func := rfl
  have h6 : frameMem (writeRequest addr func address count payload) 6 =
      UInt8.ofNat payload.length := rfl
  have hbytes : (UInt8.ofNat payload.length).toNat = payload.length := by
    rw [bufferSize] at hroom
    rw [UInt8.toNat_ofNat']
    omega
  rw [length_writeRequest] at hsize
  rw [modbusReqFrameLen, h1, h6, hbytes, if_neg (by omega),
    if_neg (by rcases hmany with rfl | rfl <;> decide), if_pos hmany, if_neg (by omega), hsize]

theorem requestFrame_encode {q : Request} (hq : q.Fits) (addr : UInt8) :
    RequestFrame (q.encode addr) where
  length_pos := by cases q <;> exact Nat.succ_pos _
  length_le := Request.length_encode_le hq addr
  crc := by cases q <;> exact crcValid_withCrc _
  frame_len := by
    cases q with
    | setCoils address values =>
      refine reqFrameLen_writeRequest (.inr rfl) _ _ ?_ rfl
      rw [Bits.length_pack]
      exact hq
    | setRegisters address values =>
      refine reqFrameLen_writeRequest (.inl rfl) _ _ ?_ rfl
      rw [length_registerBytes]
      exact hq
    | _ => rfl

/-- A response has been written to the tx FIFO of a unit that was idle before. -/
theorem handled_answering {m : Node σ} (hm : m.Idle) (frame : List UInt8) {bus : PrModbus σ}
    (hptr : bus.ptr = 0) (hpos : 0 < bus.rspSize) (hle : bus.rspSize ≤ bufferSize) :
    Answering bus.addr (bus.app, bus.calls) (load bus.buffer 0 bus.rspSize)
      ((holding m frame [] false .idle).handled (true, bus)) := by
  have hdrained : ((holding m frame [] false .idle).handled (true, bus)).drained
      ((holding m frame [] false .idle).handled (true, bus)).used =
        holding (answered m true bus) [] [] true .idle :=
    modbusTxTry_whole hm hptr hpos hle [] .idle
  have hroom : bus.rspSize ≤ m.free := Nat.le_trans hle hm.room
  have hsent : (holding m frame [] false .idle).handled (true, bus) = { m with
      bus := { bus with ptr := 0, rspSize := 0 }
      rx := []
      free := m.free - bus.rspSize
      used := bus.rspSize
      worker := false
      clear := .idle
      written := m.written ++ load bus.buffer 0 bus.rspSize
      responses := m.responses ++ [load bus.buffer 0 bus.rspSize] } := by
    unfold Node.handled modbusTxTry holding
    simp [hptr, hm.used, Node.execWorker, Node.reset, hroom]
  refine ⟨?_, ?_, ?_, ?_⟩
  · rw [hdrained]
    exact ⟨_, true, answered_idle hm true bus, rfl, rfl, rfl, fun hne => absurd rfl hne⟩
  · rw [hsent]
    exact Nat.ne_of_gt hpos
  · rw [hsent]
  · rw [hsent, Node.unsent, List.length_append, length_load, Nat.add_sub_cancel]
    exact List.drop_left

/-- The request of a unit is answered, and the response is in its tx FIFO. -/
theorem work_own {fuel : Nat} {past : UInt8} {q : Request} (hq : q.Fits)
    (hn : Listening a app (q.encode a) n)
    (hstep : step h n (.work bufferSize fuel past) = some n') :
    Answering a ((serve h q app.1).app, app.2 ++ (serve h q app.1).calls)
      ((serve h q app.1).rsp.encode a q.func) n' := by
  obtain ⟨m, w, hm, rfl, rfl, rfl, -⟩ := hn
  have hwork := step_listening hm (Request.length_encode_le hq m.bus.addr) hstep
  rw [modbusReqTry_frame h fuel m (requestFrame_encode hq m.bus.addr), busReqHandle_eq] at hwork
  have hbus : (holding m (q.encode m.bus.addr) [] false .idle).bus =
      m.bus.receives (q.encode m.bus.addr) := rfl
  rw [hbus] at hwork
  cases hok : busReqRespond h (q.encode m.bus.addr).length fuel
      (m.bus.receives (q.encode m.bus.addr)) with
  | error e =>
    rw [hok] at hwork
    cases hwork
  | ok r =>
    obtain ⟨called, bus⟩ := r
    obtain ⟨hcalled, hserves⟩ := serves_of_respond h m.bus hq fuel _ hok
    obtain rfl : called = true := hcalled
    obtain ⟨hptr, hpos, hle⟩ := busReqRespond_called hok
    rw [hok] at hwork
    cases hwork
    have hans := handled_answering hm (q.encode m.bus.addr) hptr hpos hle
    rw [hserves.addr, hserves.app, hserves.calls, hserves.rsp] at hans
    exact hans

/-- The worker of a unit that has heard a request to it can run. -/
theorem own_enabled (h : Handler σ) {q : Request} (hq : q.Fits)
    (hn : Listening a app (q.encode a) n) :
    ∃ fuel n', step h n (.work bufferSize fuel 0) = some n' := by
  have hworker := hn.worker (List.ne_nil_of_length_pos (requestFrame_encode hq a).length_pos)
  obtain ⟨m, w, hm, rfl, rfl, -, -⟩ := hn
  obtain ⟨r, fuel, hok⟩ := returns_encode h m.bus hq
  have hroom : (q.encode m.bus.addr ++ []).length ≤ bufferSize := by
    rw [List.append_nil]
    exact Request.length_encode_le hq m.bus.addr
  have hread := @onWork_frame σ h fuel 0 m hm (q.encode m.bus.addr) [] []
    (q.encode m.bus.addr) [] (requestFrame_encode hq m.bus.addr)
    (List.append_nil _).symm hroom (.inr rfl) .idle
  have hbus : (holding m (q.encode m.bus.addr) [] false .idle).bus =
      m.bus.receives (q.encode m.bus.addr) := rfl
  rw [List.append_nil, busReqHandle_eq, hbus, show busReqRespond _ _ fuel _ = _ from hok,
    bind_ok] at hread
  refine ⟨fuel, (holding m (q.encode m.bus.addr) [] false .idle).handled r, ?_⟩
  rw [step, if_pos hworker]
  exact toOption_eq_some.mpr hread

/-! ### Frames of others -/

theorem foreign_request {b : UInt8} (hne : b ≠ a) {q : Request} (hq : q.Fits) :
    Foreign a (q.encode b) := by
  have hframe := requestFrame_encode hq b
  refine ⟨hframe.length_pos, hframe.length_le, hframe.crc, ?_, .inl hframe⟩
  have hfront : frameMem (q.encode b) 0 = b := by cases q <;> rfl
  rwa [hfront]

/-- The parser of responses finds the end of a response without objects. -/
theorem rspFrameLen_responded {addr func err : UInt8} {s s1 : PrModbus σ}
    (hresp : Responded addr func s err s1) (hfunc : func ≠ readDeviceIdentification)
    (past : UInt8) {m : Mem UInt8} (hm : load m 0 s.rspSize = load s.buffer 0 s.rspSize) :
    modbusRspFrameLen past m s.rspSize = s.rspSize := by
  cases hresp with
  | error herr hsize hbytes =>
    rw [hbytes, hsize] at hm
    have h1 : (load m 0 5)[1]? = some (m 1) := load_getElem? m (by decide)
    rw [hm] at h1
    rw [hsize]
    exact ResponseLemmas.rspFrameLen_error past (Option.some.inj h1).symm (Nat.le_refl 5)
  | ok herr hsize h0 h1 hshape hroom hbytes =>
    rw [hbytes, hsize] at hm
    have hfront : load m 0 s1.ptr = load s1.buffer 0 s1.ptr := by
      have h2 := congrArg (List.take s1.ptr) hm
      rwa [load_take m (Nat.le_add_right _ 2), withCrc, List.take_append_of_le_length (by simp),
        List.take_of_length_le (by simp)] at h2
    have hptr := ResponseLemmas.shaped_ptr hshape
    rw [hsize]
    exact ResponseLemmas.rspFrameLen_shaped past hshape hfunc
      ((ResponseLemmas.eq_of_load hfront (by omega)).trans h1)
      (fun h2 => ResponseLemmas.eq_of_load hfront h2) (Nat.le_refl _)

theorem foreign_response {b : UInt8} (hne : b ≠ a) (h : Handler σ) {q : Request} (hq : q.Fits)
    (x : σ) : Foreign a ((serve h q x).rsp.encode b q.func) := by
  -- A unit that makes this response.
  obtain ⟨⟨called, s'⟩, fuel, hok⟩ :=
    returns_encode h (⟨b, fun _ => 0, 0, 0, x, []⟩ : PrModbus σ) hq
  obtain ⟨hcalled, hserves⟩ := serves_of_respond h _ hq fuel _ hok
  obtain rfl : called = true := hcalled
  obtain ⟨-, hpos, hle⟩ := busReqRespond_called hok
  obtain ⟨err, s1, hresp⟩ := hserves.responded
  have hrsp : load s'.buffer 0 s'.rspSize = (serve h q x).rsp.encode b q.func := hserves.rsp
  have hlen : ((serve h q x).rsp.encode b q.func).length = s'.rspSize := by
    rw [← hrsp, length_load]
  refine ⟨hlen ▸ hpos, hlen ▸ hle, ?_, ?_, .inr fun past m hm => ?_⟩
  · cases (serve h q x).rsp <;> exact crcValid_withCrc _
  · have hfront : frameMem ((serve h q x).rsp.encode b q.func) 0 = b := by
      cases (serve h q x).rsp <;> rfl
    rwa [hfront]
  · rw [hlen] at hm ⊢
    exact rspFrameLen_responded hresp (func_ne_devid q) past (hm.trans hrsp.symm)

end

/-! ## 3. The invariant -/

section
variable [DecidableEq ι] {h : ι → Handler σ} {addr : ι → UInt8} {apps : Apps ι σ}
  {s t : Net ι σ} {i j : ι} {r : ι × Request} {rs : List (ι × Request)}

theorem served_concat (h : ι → Handler σ) (apps : Apps ι σ) (rs : List (ι × Request))
    (r : ι × Request) : served h apps (rs ++ [r]) = serveOne h (served h apps rs) r := by
  rw [served, List.foldl_append]
  rfl

theorem answers_concat (h : ι → Handler σ) (addr : ι → UInt8) (apps : Apps ι σ)
    (rs : List (ι × Request)) (r : ι × Request) :
    answers h addr apps (rs ++ [r]) =
      answers h addr apps rs ++ [answer h addr (served h apps rs) r] := by
  induction rs generalizing apps with
  | nil => rfl
  | cons r' rs ih =>
    rw [List.cons_append, answers, ih]
    rfl

theorem length_answers (h : ι → Handler σ) (addr : ι → UInt8) (apps : Apps ι σ)
    (rs : List (ι × Request)) : (answers h addr apps rs).length = rs.length := by
  induction rs generalizing apps with
  | nil => rfl
  | cons r rs ih => exact congrArg (· + 1) (ih _)

theorem serveOne_other (h : ι → Handler σ) (apps : Apps ι σ) (hne : j ≠ r.1) :
    serveOne h apps r j = apps j :=
  Function.update_of_ne hne _ _

/-- A unit that has at most a frame of another one to handle. -/
def Resting (a : UInt8) (app : σ × List Callback) (n : Node σ) : Prop :=
  ∃ rx, Listening a app rx n ∧ (rx = [] ∨ Foreign a rx)

/-- Where the line stands: all that has been asked has been answered, or one request is being
handled or its response waits in the tx FIFO of the unit. -/
inductive Phase (h : ι → Handler σ) (addr : ι → UInt8) (apps : Apps ι σ) (s : Net ι σ) : Prop
  | answered : s.heard = answers h addr apps s.asked →
      (∀ j, Resting (addr j) (served h apps s.asked j) (s.unit j)) → Phase h addr apps s
  | asked (past : List (ι × Request)) (i : ι) (q : Request) : s.asked = past ++ [(i, q)] →
      q.Fits → s.heard = answers h addr apps past →
      (Listening (addr i) (served h apps past i) (q.encode (addr i)) (s.unit i) ∨
        Answering (addr i) (served h apps s.asked i)
          (answer h addr (served h apps past) (i, q)) (s.unit i)) →
      (∀ j, j ≠ i → Resting (addr j) (served h apps past j) (s.unit j)) → Phase h addr apps s

theorem Resting.clear_eq {a : UInt8} {app : σ × List Callback} {n : Node σ}
    (hn : Resting a app n) : n.clear = .idle := by
  obtain ⟨rx, hrx, -⟩ := hn
  exact hrx.clear_eq

theorem Resting.used_eq {a : UInt8} {app : σ × List Callback} {n : Node σ}
    (hn : Resting a app n) : n.used = 0 := by
  obtain ⟨rx, hrx, -⟩ := hn
  exact hrx.used_eq

theorem Resting.listening {a : UInt8} {app : σ × List Callback} {n : Node σ}
    (hn : Resting a app n) (hrx : n.rx = []) : Listening a app [] n := by
  obtain ⟨rx, hn, -⟩ := hn
  rw [← hrx, hn.rx_eq]
  exact hn

theorem Listening.resting {a : UInt8} {app : σ × List Callback} {n : Node σ}
    (hn : Listening a app [] n) : Resting a app n :=
  ⟨[], hn, .inl rfl⟩

theorem Resting.work {h : Handler σ} {a : UInt8} {app : σ × List Callback} {n n' : Node σ}
    {fuel : Nat} {past : UInt8} (hn : Resting a app n)
    (hstep : Modbus.step h n (.work bufferSize fuel past) = some n') : Listening a app [] n' := by
  obtain ⟨rx, hn, rfl | hframe⟩ := hn
  · exact work_nothing hn hstep
  · exact work_foreign hframe hn hstep

/-- To show something of all units after a step of one, it suffices to show it of this one and of
the others before the step. -/
theorem set_units {P : ι → Node σ → Prop} {n : Node σ} (hi : P i n)
    (hs : ∀ j, j ≠ i → P j (s.unit j)) (j : ι) : P j ((s.set i n).unit j) := by
  by_cases hj : j = i
  · subst hj
    rw [s.set_self]
    exact hi
  · rw [s.set_other hj]
    exact hs j hj

theorem phase_ask (hinj : Function.Injective addr) (hs : Phase h addr apps s) {q : Request}
    (hq : q.Fits) (hheard : s.heard.length = s.asked.length) (hrx : ∀ j, (s.unit j).rx = []) :
    Phase h addr apps (s.asking addr i q) := by
  cases hs with
  | answered hans hunits =>
    refine .asked s.asked i q rfl hq hans (.inl ?_) fun j hj => ?_
    · exact ((hunits i).listening (hrx i)).arrived _
    · exact ⟨_, ((hunits j).listening (hrx j)).arrived _,
        .inr (foreign_request (fun he => hj (hinj he).symm) hq)⟩
  | asked past i' q' hasked hq' hans hown hothers =>
    rw [hans, hasked, length_answers, List.length_append] at hheard
    exact absurd hheard (Nat.ne_of_lt (Nat.lt_succ_self _))

theorem phase_work (hs : Phase h addr apps s) {fuel : Nat} {past : UInt8} {n : Node σ}
    (hstep : Modbus.step (h i) (s.unit i) (.work bufferSize fuel past) = some n) :
    Phase h addr apps (s.set i n) := by
  cases hs with
  | answered hans hunits =>
    refine .answered hans fun j => ?_
    exact set_units (P := fun j n => Resting (addr j) (served h apps s.asked j) n)
      ((hunits i).work hstep).resting (fun j _ => hunits j) j
  | asked past' i' q hasked hq hans hown hothers =>
    by_cases hi : i = i'
    · subst hi
      refine .asked past' i q hasked hq hans ?_ fun j hj => ?_
      · rcases hown with hown | hown
        · have hans' := work_own hq hown hstep
          rw [s.set_self]
          refine .inr ?_
          show Answering _ (served h apps s.asked i) _ n
          rw [hasked, served_concat, serveOne, Function.update_self]
          exact hans'
        · have hworker := (step_work hstep).1
          rw [hown.worker] at hworker
          cases hworker
      · rw [s.set_other hj]
        exact hothers j hj
    · have hi' : i' ≠ i := fun he => hi he.symm
      refine .asked past' i' q hasked hq hans ?_ fun j hj => ?_
      · rw [s.set_other hi']
        exact hown
      · by_cases hji : j = i
        · subst hji
          rw [s.set_self]
          exact ((hothers j hj).work hstep).resting
        · rw [s.set_other hji]
          exact hothers j hj

theorem Phase.clear_eq (hs : Phase h addr apps s) (i : ι) : (s.unit i).clear = .idle := by
  cases hs with
  | answered hans hunits => exact (hunits i).clear_eq
  | asked past i' q hasked hq hans hown hothers =>
    by_cases hi : i = i'
    · subst hi
      rcases hown with hown | hown
      · exact hown.clear_eq
      · exact hown.clear_eq
    · exact (hothers i hi).clear_eq

theorem phase_transmit (hinj : Function.Injective addr) (hs : Phase h addr apps s)
    (hused : (s.unit i).used ≠ 0) (hrx : ∀ j, j ≠ i → (s.unit j).rx = []) :
    Phase h addr apps (s.sent i) ∧ (s.sent i).heard = answers h addr apps s.asked := by
  cases hs with
  | answered hans hunits => exact absurd (hunits i).used_eq hused
  | asked past i' q hasked hq hans hown hothers =>
    have hi : i = i' := Decidable.byContradiction fun hi => hused (hothers i hi).used_eq
    subst hi
    rcases hown with hown | hown
    · exact absurd hown.used_eq hused
    have hheard : (s.sent i).heard = answers h addr apps s.asked := by
      rw [Net.sent, hans, hown.unsent, hasked, answers_concat]
    refine ⟨.answered hheard fun j => ?_, hheard⟩
    by_cases hj : j = i
    · subst hj
      have hunit : (s.sent j).unit j = (s.unit j).drained (s.unit j).used := if_pos rfl
      rw [hunit]
      exact hown.drained.resting
    · have hunit : (s.sent i).unit j = (s.unit j).arrived (s.unit i).unsent := if_neg hj
      have hsame : served h apps s.asked j = served h apps past j := by
        rw [hasked, served_concat, serveOne_other h _ hj]
      rw [hunit, hown.unsent]
      show Resting _ (served h apps s.asked j) _
      rw [hsame]
      exact ⟨_, ((hothers j hj).listening (hrx j hj)).arrived _,
        .inr (foreign_response (fun he => hj (hinj he).symm) (h i) hq _)⟩

/-- Every step that is in time keeps the invariant. -/
theorem phase_step (hinj : Function.Injective addr) {a : NetAct ι} (hs : Phase h addr apps s)
    (hstep : s.step h addr a = some t) (hok : InTime s a) : Phase h addr apps t := by
  cases a with
  | ask i q =>
    simp only [Net.step] at hstep
    split at hstep
    · next hask =>
      cases hstep
      exact phase_ask hinj hs hask.1 hask.2 hok
    · cases hstep
  | work i fuel past =>
    obtain ⟨n, hn, rfl⟩ := Option.map_eq_some_iff.mp hstep
    exact phase_work hs hn
  | expire i =>
    obtain ⟨n, hn, -⟩ := Option.map_eq_some_iff.mp hstep
    have hwaiting := (step_expire hn).1
    rw [hs.clear_eq] at hwaiting
    cases hwaiting
  | clear i =>
    obtain ⟨n, hn, -⟩ := Option.map_eq_some_iff.mp hstep
    have hpending := (step_clear hn).1
    rw [hs.clear_eq] at hpending
    cases hpending
  | transmit i =>
    simp only [Net.step] at hstep
    split at hstep
    · next hused =>
      cases hstep
      exact (phase_transmit hinj hs hused hok).1
    · cases hstep

theorem phase_init (hs : s.Init addr) : Phase h addr s.apps s := by
  refine .answered ?_ fun j => ?_
  · rw [hs.heard, hs.asked]
    rfl
  · have hidle := hs.unit j
    refine Listening.resting ⟨s.unit j, false, hidle, ?_, hs.addr j, ?_, fun hne => absurd rfl hne⟩
    · rw [holding_nil hidle, ← hs.clear j]
    · rw [hs.asked]
      rfl

/-! ## 4. Every request is answered -/

/-- The line has gone on from `s` to `t`, in time and in steps of the units alone. -/
structure Settles (h : ι → Handler σ) (addr : ι → UInt8) (apps : Apps ι σ) (s t : Net ι σ) :
    Prop where
  reachable : (((net h addr s).guard InTime).after s).Reachable t
  phase : Phase h addr apps t
  asked : t.asked = s.asked

theorem Settles.trans {u : Net ι σ} (hst : Settles h addr apps s t)
    (htu : Settles h addr apps t u) : Settles h addr apps s u :=
  ⟨hst.reachable.after htu.reachable, htu.phase, htu.asked.trans hst.asked⟩

/-- The worker of a unit has handled what it has heard. -/
theorem settle_unit (hinj : Function.Injective addr) (hs : Phase h addr apps s) (i : ι) :
    ∃ t, Settles h addr apps s t ∧ t.heard = s.heard ∧ (t.unit i).rx = [] ∧
      ∀ j, (s.unit j).rx = [] → (t.unit j).rx = [] := by
  by_cases hrx : (s.unit i).rx = []
  · exact ⟨s, ⟨.init rfl, hs, rfl⟩, rfl, hrx, fun _ hj => hj⟩
  have henabled : ∃ fuel n,
      Modbus.step (h i) (s.unit i) (.work bufferSize fuel 0) = some n ∧ n.rx = [] := by
    have hresting {app : σ × List Callback} (hn : Resting (addr i) app (s.unit i)) : ∃ fuel n,
        Modbus.step (h i) (s.unit i) (.work bufferSize fuel 0) = some n ∧ n.rx = [] := by
      have hwork := hn
      obtain ⟨rx, hn, rfl | hframe⟩ := hn
      · exact absurd hn.rx_eq hrx
      · obtain ⟨n, hstep⟩ := foreign_enabled (h i) hframe hn
        exact ⟨0, n, hstep, (hwork.work hstep).rx_eq⟩
    cases hs with
    | answered hans hunits => exact hresting (hunits i)
    | asked past i' q hasked hq hans hown hothers =>
      by_cases hi : i = i'
      · subst hi
        rcases hown with hown | hown
        · obtain ⟨fuel, n, hstep⟩ := own_enabled (h i) hq hown
          exact ⟨fuel, n, hstep, (work_own hq hown hstep).rx_eq⟩
        · exact absurd hown.rx_eq hrx
      · exact hresting (hothers i hi)
  obtain ⟨fuel, n, hstep, hn⟩ := henabled
  have hnet : s.step h addr (.work i fuel 0) = some (s.set i n) := by
    rw [Net.step, hstep, Option.map_some]
  refine ⟨s.set i n, ⟨.step (.init rfl) ⟨hnet, trivial⟩, phase_step hinj hs hnet trivial, rfl⟩,
    rfl, ?_, fun j hj => ?_⟩
  · rw [s.set_self]
    exact hn
  · exact set_units (P := fun j n => (s.unit j).rx = [] → n.rx = []) (fun _ => hn)
      (fun j _ hj => hj) j hj

theorem settle_units [Finite ι] (hinj : Function.Injective addr) (hs : Phase h addr apps s) :
    ∃ t, Settles h addr apps s t ∧ t.heard = s.heard ∧ ∀ j, (t.unit j).rx = [] := by
  have hlist : ∀ l : List ι, ∃ t, Settles h addr apps s t ∧ t.heard = s.heard ∧
      ∀ j ∈ l, (t.unit j).rx = [] := by
    intro l
    induction l with
    | nil => exact ⟨s, ⟨.init rfl, hs, rfl⟩, rfl, fun _ hj => absurd hj List.not_mem_nil⟩
    | cons i l ih =>
      obtain ⟨t, hst, hheard, hrx⟩ := ih
      obtain ⟨u, htu, hheard', hi, hkeep⟩ := settle_unit hinj hst.phase i
      refine ⟨u, hst.trans htu, hheard'.trans hheard, fun j hj => ?_⟩
      rcases List.mem_cons.mp hj with rfl | hj
      · exact hi
      · exact hkeep j (hrx j hj)
  obtain ⟨l, hl⟩ : ∃ l : List ι, ∀ j, j ∈ l := by
    obtain ⟨n, ⟨e⟩⟩ := Finite.exists_equiv_fin ι
    refine ⟨(List.finRange n).map e.symm, fun j => ?_⟩
    exact List.mem_map.mpr ⟨e j, List.mem_finRange _, e.symm_apply_apply j⟩
  obtain ⟨t, hst, hheard, hrx⟩ := hlist l
  exact ⟨t, hst, hheard, fun j => hrx j (hl j)⟩

/-- The line goes on until the last request has been answered. -/
theorem settle_answered [Finite ι] (hinj : Function.Injective addr) (hs : Phase h addr apps s) :
    ∃ t, Settles h addr apps s t ∧ t.heard = answers h addr apps s.asked ∧
      ∀ j, (t.unit j).rx = [] := by
  obtain ⟨t, hst, -, hrx⟩ := settle_units hinj hs
  rw [← hst.asked]
  cases hst.phase with
  | answered hans hunits => exact ⟨t, hst, hans, hrx⟩
  | asked past i q hasked hq hans hown hothers =>
    rcases hown with hown | hown
    · have hne := List.ne_nil_of_length_pos (requestFrame_encode hq (addr i)).length_pos
      exact absurd (hown.rx_eq.symm.trans (hrx i)) hne
    -- All have handled the request, so the response can be sent.
    obtain ⟨hphase, hheard⟩ := phase_transmit hinj hst.phase hown.used fun j _ => hrx j
    have hnet : t.step h addr (.transmit i) = some (t.sent i) := if_pos hown.used
    have htu : Settles h addr apps t (t.sent i) :=
      ⟨.step (.init rfl) ⟨hnet, fun j _ => hrx j⟩, hphase, rfl⟩
    obtain ⟨u, huv, hheard', hrx'⟩ := settle_units hinj hphase
    exact ⟨u, (hst.trans htu).trans huv, hheard'.trans hheard, hrx'⟩

theorem Phase.apps_eq (hs : Phase h addr apps s) (hlen : s.heard.length = s.asked.length) :
    s.apps = served h apps s.asked := by
  cases hs with
  | answered hans hunits =>
    funext i
    obtain ⟨rx, hrx, -⟩ := hunits i
    exact hrx.app_eq
  | asked past i q hasked hq hans hown hothers =>
    rw [hans, length_answers, hasked, List.length_append] at hlen
    exact absurd hlen (Nat.ne_of_lt (Nat.lt_succ_self _))

/-- The invariant holds under every order of steps that are in time. -/
theorem phase_reachable (hinj : Function.Injective addr) {s0 : Net ι σ} (h0 : s0.Init addr)
    (hs : ((net h addr s0).guard InTime).Reachable s) : Phase h addr s0.apps s := by
  refine hs.invariant (I := Phase h addr s0.apps) ?_ ?_
  · rintro s rfl
    exact phase_init h0
  · exact fun s a t hs hstep => phase_step hinj hs hstep.1 hstep.2

end

end NetworkLemmas

open NetworkLemmas

section
variable [DecidableEq ι]

/-- Under every order of steps in which no unit is late, the client hears the answers to its
requests, one for each, and in their order. All but the last one have been heard, and when this one
has been heard too, every application is where the requests to its unit have led it: no other unit
has called its own. -/
theorem net_answers (h : ι → Handler σ) {addr : ι → UInt8} (hinj : Function.Injective addr)
    {s0 s : Net ι σ} (h0 : s0.Init addr) (hs : ((net h addr s0).guard InTime).Reachable s) :
    s.heard <+: answers h addr s0.apps s.asked ∧ s.asked.length ≤ s.heard.length + 1 ∧
      (s.heard.length = s.asked.length → s.apps = served h s0.apps s.asked) := by
  have hphase := phase_reachable hinj h0 hs
  refine ⟨?_, ?_, hphase.apps_eq⟩
  · cases hphase with
    | answered hans hunits => exact hans ▸ List.prefix_rfl
    | asked past i q hasked hq hans hown hothers =>
      rw [hans, hasked, answers_concat]
      exact List.prefix_append _ _
  · cases hphase with
    | answered hans hunits =>
      rw [hans, length_answers]
      exact Nat.le_succ _
    | asked past i q hasked hq hans hown hothers =>
      rw [hans, length_answers, hasked, List.length_append]
      exact Nat.le_refl _

namespace NetworkLemmas

/-- Two units, with addresses 1 and 2, in which all coils and registers are clear. -/
def pairAddr (i : Bool) : UInt8 := if i then 2 else 1

def pair : Net Bool ((UInt16 → Bool) × (UInt16 → UInt16)) where
  unit i := ⟨{ cleared with addr := pairAddr i }, [], 512, 0, false, .idle, [], []⟩
  asked := []
  heard := []

theorem pair_init : pair.Init pairAddr where
  unit _ := ⟨rfl, rfl, rfl, rfl, rfl, Nat.le_of_ble_eq_true rfl⟩
  clear _ := rfl
  addr _ := rfl
  calls _ := rfl
  asked := rfl
  heard := rfl

theorem pairAddr_injective : Function.Injective pairAddr := by decide

/-- Unit 2 has been asked to set coil 5. -/
def pairAsked : Net Bool ((UInt16 → Bool) × (UInt16 → UInt16)) :=
  pair.asking pairAddr true (.setCoil 5 0xff00)

theorem pairAsked_reachable :
    ((net (fun _ => arrayHandler) pairAddr pair).guard InTime).Reachable pairAsked := by
  have hstep : pair.step (fun _ => arrayHandler) pairAddr (.ask true (.setCoil 5 0xff00)) =
      some pairAsked := by
    rw [Net.step, if_pos ⟨trivial, rfl⟩]
    rfl
  exact .step (.init rfl) ⟨hstep, fun _ => rfl⟩

def bothWork : List (NetAct Bool) := [.work false 0 0, .work true 0 0]

/-- The coil is set, and then coil 5 of unit 1 is read. -/
def twoRequests : List (NetAct Bool) :=
  [.ask true (.setCoil 5 0xff00)] ++ bothWork ++ [.transmit true] ++ bothWork ++
    [.ask false (.coils 5 1)] ++ bothWork ++ [.transmit false]

/-- Unit 1 does not run until it has heard three frames, of which the last one is for it. -/
def lateRun : List (NetAct Bool) :=
  [.ask true (.setCoil 5 0xff00), .work true 0 0, .transmit true, .ask false (.coils 5 1)] ++
    bothWork

end NetworkLemmas

/-- Two requests have been answered, and unit 1 does not have the coil of unit 2. -/
theorem net_answers_pair : ∃ s : Net Bool ((UInt16 → Bool) × (UInt16 → UInt16)),
    ((net (fun _ => arrayHandler) pairAddr pair).guard InTime).Reachable s ∧
      s.heard = [withCrc [2, 5, 0, 5, 0xff, 0], withCrc [1, 1, 1, 0]] ∧
      s.heard <+: answers (fun _ => arrayHandler) pairAddr pair.apps s.asked ∧
      s.apps = served (fun _ => arrayHandler) pair.apps s.asked := by
  have hrun : (exec (guarded (Net.step (fun _ => arrayHandler) pairAddr) InTime) pair
      twoRequests).map (fun s => (s.heard, s.asked.length)) =
        some ([withCrc [2, 5, 0, 5, 0xff, 0], withCrc [1, 1, 1, 0]], 2) := by
    decide +kernel
  obtain ⟨s, hs, hfields⟩ := Option.map_eq_some_iff.mp hrun
  obtain ⟨hheard, hasked⟩ := Prod.mk.inj hfields
  have hinit : ((net (fun _ => arrayHandler) pairAddr pair).guard InTime).Reachable pair :=
    .init rfl
  have hreach := hinit.exec_guarded hs
  obtain ⟨hanswers, -, happs⟩ := net_answers (fun _ => arrayHandler) pairAddr_injective pair_init
    hreach
  refine ⟨s, hreach, hheard, hanswers, happs ?_⟩
  rw [hheard, hasked]
  rfl

/-- The condition `InTime` cannot be dropped. A unit that is late reads the requests to others and
the one to itself together, and drops them all with the first one. The client waits for its answer,
and nothing on the line can go on. -/
theorem inTime_needed : ∃ s : Net Bool ((UInt16 → Bool) × (UInt16 → UInt16)),
    (net (fun _ => arrayHandler) pairAddr pair).Reachable s ∧
      s.heard.length < s.asked.length ∧
      ∀ a, s.step (fun _ => arrayHandler) pairAddr a = none := by
  have hrun : (exec (Net.step (fun _ => arrayHandler) pairAddr) pair lateRun).map (fun s =>
      (s.heard.length, s.asked.length, fun i => ((s.unit i).worker, (s.unit i).clear,
        (s.unit i).used))) = some (1, 2, fun _ => (false, .idle, 0)) := by
    decide +kernel
  obtain ⟨s, hs, hfields⟩ := Option.map_eq_some_iff.mp hrun
  obtain ⟨hheard, hrest⟩ := Prod.mk.inj hfields
  obtain ⟨hasked, hunits⟩ := Prod.mk.inj hrest
  have hunit (i : Bool) : (s.unit i).worker = false ∧ (s.unit i).clear = .idle ∧
      (s.unit i).used = 0 := by
    simpa using congrFun hunits i
  have hlt : s.heard.length < s.asked.length := by
    rw [hheard, hasked]
    decide
  refine ⟨s, Lts.reachable_exec (.init rfl) hs, hlt, fun a => ?_⟩
  cases a with
  | ask i q => exact if_neg fun hask => absurd hask.2 (Nat.ne_of_lt hlt)
  | work i fuel past => simp [Net.step, Modbus.step, (hunit i).1]
  | expire i => simp [Net.step, Modbus.step, (hunit i).2.1]
  | clear i => simp [Net.step, Modbus.step, (hunit i).2.1]
  | transmit i => simp [Net.step, (hunit i).2.2]

/-- From every state that a run in time has come to, the units can go on, in time as well, until the
client has heard the answers to all of its requests, and all units have handled all frames. -/
theorem net_answered [Finite ι] (h : ι → Handler σ) {addr : ι → UInt8}
    (hinj : Function.Injective addr) {s0 s : Net ι σ} (h0 : s0.Init addr)
    (hs : ((net h addr s0).guard InTime).Reachable s) :
    ∃ t, (((net h addr s).guard InTime).after s).Reachable t ∧ t.asked = s.asked ∧
      t.heard = answers h addr s0.apps s.asked ∧ t.apps = served h s0.apps s.asked ∧
      ∀ j, (t.unit j).rx = [] := by
  obtain ⟨t, hst, hheard, hrx⟩ := settle_answered hinj (phase_reachable hinj h0 hs)
  refine ⟨t, hst.reachable, hst.asked, hheard, ?_, hrx⟩
  rw [← hst.asked]
  refine hst.phase.apps_eq ?_
  rw [hheard, length_answers, hst.asked]

/-- Coil 5 of unit 2 gets set, that of unit 1 does not, and the response is heard. -/
theorem net_answered_pair :
    ∃ t, (((net (fun _ => arrayHandler) pairAddr pairAsked).guard InTime).after
        pairAsked).Reachable t ∧
      t.heard = [withCrc [2, 5, 0, 5, 0xff, 0]] ∧ (t.unit true).bus.app.1 5 = true ∧
      (t.unit false).bus.app.1 5 = false := by
  obtain ⟨t, hreach, -, hheard, happs, -⟩ := net_answered (fun _ => arrayHandler)
    pairAddr_injective pair_init pairAsked_reachable
  refine ⟨t, hreach, hheard, ?_, ?_⟩
  · exact congrArg (fun app => app.1.1 5) (congrFun happs true)
  · exact congrArg (fun app => app.1.1 5) (congrFun happs false)

end

end Picore.Modbus
