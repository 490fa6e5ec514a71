import Picore.Modbus.Address
import Picore.Modbus.Bus
import Picore.Modbus.FrameLen

/-!
# Requests in a stream of bytes

The bytes of several requests come in deliveries that need not end where the requests
do. A match of one of the parsers sets `ptr` to zero whatever else is in the buffer,
and the parser of responses looks at requests that are not complete yet.

Results:
1. `settle_part`, `settle_frame`: what the worker does with a part of a frame, and with
   the rest of it.
2. `settle_taken`: a part that is taken for a response is lost. So are the bytes behind
   a frame, by `settle_frame`.
3. `stream_same`: deliveries in which neither happens make no difference.
   `stream_differs`: deliveries that do.
-/

namespace Picore.Modbus

open Memory Fuel

variable {σ : Type}

/-! ## 1. Frames and deliveries -/

/-- The bytes of a frame at the start of a buffer. -/
def frameMem (bytes : List UInt8) : Mem UInt8 := store (fun _ => 0) 0 bytes

/-- A CRC-valid request of a supported function code, no longer than the buffer. Its length is the
one that `modbus_req_frame_len` reads from it. -/
structure RequestFrame (frame : List UInt8) : Prop where
  length_pos : 0 < frame.length
  length_le : frame.length ≤ bufferSize
  frame_len : modbusReqFrameLen (frameMem frame) frame.length = frame.length
  crc : crcValid frame = true

/-- `modbus_rsp_try` takes these bytes for a response, or drops them because they seem
to be one that is too long. -/
def TakenAsRsp (past : UInt8) (bytes : List UInt8) : Prop :=
  let frameLen := modbusRspFrameLen past (frameMem bytes) bytes.length
  frameLen ≠ 0 ∧ (bufferSize < frameLen ∨ frameLen ≤ bytes.length ∧ crcValid (bytes.take frameLen))

instance (past : UInt8) (bytes : List UInt8) : Decidable (TakenAsRsp past bytes) :=
  inferInstanceAs (Decidable (_ ∧ (_ ∨ _ ∧ _)))

/-- `part` is what has come of a frame that is not complete yet. It may be nothing at all. -/
structure PartOf (part frame : List UInt8) : Prop where
  isPrefix : part <+: frame
  ne : part ≠ frame

/-- Nothing is lost, in a unit with a part of a frame in its buffer (`held`) and bytes in
its rx FIFO (`unread`) whose worker is awake or idle, up to the end of the `frames` and
the deliveries that are still to come.

* `done`: nothing is to come, and nothing is left.
* `delivery`: more bytes come, which wakes the worker.
* `part`: the worker reads up to a part of the frame that is not taken for a response.
* `whole`: the worker reads up to the end of the frame. Bytes behind it stay in the FIFO
  only if the frame has filled the buffer. The worker goes on with them if it has
  answered, and else with the next delivery. -/
inductive CleanRun (past addr : UInt8) :
    Bool → List UInt8 → List UInt8 → List (List UInt8) → List (List UInt8) → Prop
  | done : CleanRun past addr false [] [] [] []
  | delivery {held unread bytes : List UInt8} {frames deliveries : List (List UInt8)} :
      CleanRun past addr (!bytes.isEmpty) held (unread ++ bytes) frames deliveries →
      CleanRun past addr false held unread frames (bytes :: deliveries)
  | part {held unread frame : List UInt8} {frames deliveries : List (List UInt8)} :
      PartOf (held ++ unread) frame → ¬ TakenAsRsp past (held ++ unread) →
      CleanRun past addr false (held ++ unread) [] (frame :: frames) deliveries →
      CleanRun past addr true held unread (frame :: frames) deliveries
  | whole {held rest unread frame : List UInt8} {frames deliveries : List (List UInt8)} :
      held ++ rest = frame → frame.length = bufferSize ∨ unread = [] →
      CleanRun past addr (frame.head? = some addr && !unread.isEmpty) [] unread frames
        deliveries →
      CleanRun past addr true held (rest ++ unread) (frame :: frames) deliveries

/-- The worker runs until it is idle. The transport has emptied the tx FIFO before each
of its runs. -/
def settle (h : Handler σ) (fuel : Nat) (past : UInt8) :
    Nat → Node σ → Outcome OutOfBounds (Node σ)
  | 0, _ => .error .timeout
  | rounds + 1, n =>
    if n.worker then do
      let n ← onWork h bufferSize fuel past { n with worker := false }
      settle h fuel past rounds (n.drained n.used)
    else .ok n

def deliver (h : Handler σ) (fuel : Nat) (past : UInt8) (rounds : Nat) (bytes : List UInt8)
    (n : Node σ) : Outcome OutOfBounds (Node σ) :=
  settle h fuel past rounds (n.arrived bytes)

def deliverAll (h : Handler σ) (fuel : Nat) (past : UInt8) (rounds : Nat) :
    List (List UInt8) → Node σ → Outcome OutOfBounds (Node σ)
  | [], n => .ok n
  | bytes :: deliveries, n => do
    let n ← deliver h fuel past rounds bytes n
    deliverAll h fuel past rounds deliveries n

/-- Nothing is being received or sent, and the tx FIFO has room for any response. -/
structure Node.Idle (n : Node σ) : Prop where
  ptr : n.bus.ptr = 0
  rsp_size : n.bus.rspSize = 0
  rx : n.rx = []
  used : n.used = 0
  worker : n.worker = false
  room : bufferSize ≤ n.free

/-- Where the frames delivered one by one are handled, so are the deliveries, with the
same callbacks and the same bytes written. -/
def SameAsAlone (h : Handler σ) (fuel : Nat) (past : UInt8) (frames deliveries : List (List UInt8))
    (n : Node σ) : Prop :=
  ∀ n1, Returns (fun rounds => deliverAll h fuel past rounds frames n) n1 →
    ∃ n2, Returns (fun rounds => deliverAll h fuel past rounds deliveries n) n2 ∧
      n2.bus.calls = n1.bus.calls ∧ n2.written = n1.written

/-! ### The parsers on a part of a frame -/

theorem store_front {m m' : Mem UInt8} {bytes : List UInt8} {i : Nat} (h : i < bytes.length) :
    store m 0 bytes i = store m' 0 bytes i := by
  have h1 (m : Mem UInt8) : store m 0 bytes i = bytes[i] := by
    rw [← store_apply_add (m := m) (p := 0) h, Nat.zero_add]
  rw [h1, h1]

/-- A prefix of some bytes agrees with them as long as it lasts. -/
theorem store_part {xs ys : List UInt8} (h : xs <+: ys) (m m' : Mem UInt8) :
    ∀ i < xs.length, store m 0 xs i = store m' 0 ys i := by
  obtain ⟨rest, rfl⟩ := h
  intro i hi
  refine (@store_front m m' xs i hi).trans ?_
  rw [store_append]
  exact (store_apply_of_lt (by simpa using hi)).symm

theorem PartOf.length_lt {part frame : List UInt8} (h : PartOf part frame) :
    part.length < frame.length :=
  Nat.lt_of_le_of_ne h.isPrefix.length_le fun he => h.ne (h.isPrefix.eq_of_length he)

/-- The parser of requests waits for the rest of the frame. -/
theorem PartOf.reqFrameLen {part frame : List UInt8} (h : PartOf part frame)
    (hlen : modbusReqFrameLen (frameMem frame) frame.length = frame.length) (m : Mem UInt8) :
    modbusReqFrameLen (store m 0 part) part.length = 0 ∨
      modbusReqFrameLen (store m 0 part) part.length = frame.length := by
  rw [reqFrameLen_congr (store_part h.isPrefix m (fun _ => 0)), ← frameMem]
  by_cases h0 : modbusReqFrameLen (frameMem frame) part.length = 0
  · exact .inl h0
  · exact .inr ((reqFrameLen_mono (Nat.le_of_lt h.length_lt) h0).symm.trans hlen)

theorem RequestFrame.reqFrameLen {frame : List UInt8} (hf : RequestFrame frame)
    (extra : List UInt8) (m : Mem UInt8) :
    modbusReqFrameLen (store m 0 (frame ++ extra)) (frame ++ extra).length = frame.length := by
  have hagrees := store_part (List.prefix_append frame extra) (fun _ => 0) m
  have hlen : modbusReqFrameLen (store m 0 (frame ++ extra)) frame.length = frame.length :=
    (reqFrameLen_congr fun i hi => (hagrees i hi).symm).trans hf.frame_len
  have hle : frame.length ≤ (frame ++ extra).length := (List.prefix_append frame extra).length_le
  rw [reqFrameLen_mono hle (by rw [hlen]; exact Nat.ne_of_gt hf.length_pos), hlen]

/-- The parser of responses sees nothing but the part. -/
theorem PartOf.rspFrameLen {part frame : List UInt8} (h : PartOf part frame)
    (hf : RequestFrame frame) (past : UInt8) (m : Mem UInt8) :
    modbusRspFrameLen past (store m 0 part) part.length =
      modbusRspFrameLen past (frameMem part) part.length := by
  have hpart := h.length_lt
  have hle : part.length ≤ 256 := Nat.le_trans (Nat.le_of_lt hpart) hf.length_le
  refine rspFrameLen_congr past past hle (fun i hi => store_front hi) fun hstray => ?_
  -- A device identification request has seven bytes.
  have h7 := hstray.seven_le
  have hfunc := hstray.1
  rw [store_part h.isPrefix m (fun _ => 0) 1 (Nat.lt_of_lt_of_le (by decide) h7), ← frameMem]
    at hfunc
  have hlen := hf.frame_len
  rw [modbusReqFrameLen, hfunc, if_neg (Nat.not_lt.2 (Nat.le_trans (by decide)
    (Nat.le_trans h7 (Nat.le_of_lt hpart))))] at hlen
  have hframe : 7 = frame.length := hlen
  exact absurd h7 (Nat.not_le.2 (hframe ▸ hpart))

/-! ## 2. The worker -/

namespace StreamLemmas

/-! ### A node that is receiving a frame -/

def buffered (s : PrModbus σ) (bytes : List UInt8) : PrModbus σ :=
  { s with buffer := store s.buffer 0 bytes, ptr := bytes.length }

/-- An idle node, once bytes have come: some are in the buffer, others have not been
read yet. -/
def holding (n : Node σ) (held unread : List UInt8) (worker : Bool) (c : ClearTask) : Node σ :=
  { n with bus := buffered n.bus held, rx := unread, worker := worker, clear := c }

theorem buffered_nil {s : PrModbus σ} (hs : s.ptr = 0) : buffered s [] = s := by
  unfold buffered
  rw [store_nil, List.length_nil, ← hs]

theorem holding_nil {n : Node σ} (hn : n.Idle) (c : ClearTask) :
    holding n [] [] false c = { n with clear := c } := by
  unfold holding
  rw [buffered_nil hn.ptr, ← hn.rx, ← hn.worker]

/-- What the worker reads, if it reads all or fills the buffer. -/
theorem received_holding (n : Node σ) {held bytes unread : List UInt8} (c : ClearTask)
    (hlen : (held ++ bytes).length ≤ bufferSize)
    (hfull : (held ++ bytes).length = bufferSize ∨ unread = []) :
    (holding n held (bytes ++ unread) false c).received bufferSize =
      holding n (held ++ bytes) unread false c := by
  rw [List.length_append] at hlen hfull
  have htake : (bytes ++ unread).take (min bufferSize (bufferSize - held.length)) = bytes := by
    rcases hfull with h | rfl
    · rw [Nat.min_eq_right (Nat.sub_le _ _), ← h, Nat.add_sub_cancel_left, List.take_left]
    · rw [List.append_nil, List.take_of_length_le]
      omega
  have hdrop : (bytes ++ unread).drop bytes.length = unread := List.drop_left
  unfold Node.received holding buffered
  simp only [htake, hdrop]
  rw [store_append, List.length_append, Nat.zero_add]

theorem load_front (m : Mem UInt8) {bytes : List UInt8} {k : Nat} (hk : k ≤ bytes.length) :
    load (store m 0 bytes) 0 k = bytes.take k := by
  rw [← load_take _ hk, load_store_self]

theorem holding_drained {n : Node σ} (hn : n.Idle) (held unread : List UInt8) (worker : Bool)
    (c : ClearTask) :
    (holding n held unread worker c).drained (holding n held unread worker c).used =
      holding n held unread worker c := by
  unfold Node.drained holding
  simp [hn.used]

theorem settle_work (h : Handler σ) (fuel rounds : Nat) (past : UInt8) (n : Node σ)
    (held unread : List UInt8) (c : ClearTask) :
    settle h fuel past (rounds + 1) (holding n held unread true c) = (do
      let n ← onWork h bufferSize fuel past (holding n held unread false c)
      settle h fuel past rounds (n.drained n.used)) := by
  rw [settle, if_pos (show (holding n held unread true c).worker = true from rfl)]
  rfl

theorem settle_done (h : Handler σ) (fuel rounds : Nat) (past : UInt8) (n : Node σ)
    (held unread : List UInt8) (c : ClearTask) :
    settle h fuel past (rounds + 1) (holding n held unread false c) =
      .ok (holding n held unread false c) := by
  rw [settle, if_neg (show ¬ (holding n held unread false c).worker = true from
    Bool.false_ne_true)]

theorem onWork_holding (h : Handler σ) (fuel : Nat) (past : UInt8) {n : Node σ} (hn : n.Idle)
    {held bytes unread : List UInt8} (c : ClearTask)
    (hlen : (held ++ bytes).length ≤ bufferSize)
    (hfull : (held ++ bytes).length = bufferSize ∨ unread = []) :
    onWork h bufferSize fuel past (holding n held (bytes ++ unread) false c) = (do
      let (useful, n) ← modbusReqTry h fuel (holding n (held ++ bytes) unread false c)
      if useful then .ok n
      else
        let (useful, n) := modbusRspTry past n
        if useful then .ok n
        else if n.bus.ptr ≠ 0 then .ok n.execClear
        else .ok n) := by
  have hsize : ¬ (holding n held (bytes ++ unread) false c).bus.rspSize ≠ 0 :=
    not_not.mpr hn.rsp_size
  rw [onWork, if_neg hsize, modbusRxTry, received_holding n c hlen hfull]

/-! ### A part of a frame -/

theorem modbusReqTry_part (h : Handler σ) (fuel : Nat) (n : Node σ) {frame part : List UInt8}
    (hf : RequestFrame frame) (hp : PartOf part frame) (c : ClearTask) :
    modbusReqTry h fuel (holding n part [] false c) = .ok (false, holding n part [] false c) := by
  have hlen : modbusReqFrameLen (holding n part [] false c).bus.buffer
        (holding n part [] false c).bus.ptr = 0 ∨
      modbusReqFrameLen (holding n part [] false c).bus.buffer
        (holding n part [] false c).bus.ptr = frame.length :=
    hp.reqFrameLen hf.frame_len n.bus.buffer
  have hlt : frame.length > (holding n part [] false c).bus.ptr := hp.length_lt
  unfold modbusReqTry
  simp only
  rcases hlen with h0 | h1
  · rw [if_pos h0]
  · rw [h1, if_neg (Nat.ne_of_gt hf.length_pos), if_neg (Nat.not_lt_of_le hf.length_le),
      if_pos hlt]

/-- `modbus_rsp_try` on the start of a request. It sees the bytes as those of a response, whose
length decides which of its cases is taken. -/
theorem modbusRspTry_holding {past : UInt8} (n : Node σ) {frame part : List UInt8}
    (hf : RequestFrame frame) (hp : PartOf part frame) (c : ClearTask) :
    modbusRspTry past (holding n part [] false c) =
      (let frameLen := modbusRspFrameLen past (frameMem part) part.length
      if frameLen = 0 then (false, holding n part [] false c)
      else if frameLen > bufferSize then
        (true, { holding n part [] false c with bus := { buffered n.bus part with ptr := 0 } })
      else if frameLen > part.length then (false, holding n part [] false c)
      else if ¬ crcValid (part.take frameLen) then (false, holding n part [] false c)
      else (true, (holding n part [] false c).reset)) := by
  have hlen : modbusRspFrameLen past (holding n part [] false c).bus.buffer
      (holding n part [] false c).bus.ptr = modbusRspFrameLen past (frameMem part) part.length :=
    hp.rspFrameLen hf past n.bus.buffer
  unfold modbusRspTry
  simp only [hlen]
  generalize modbusRspFrameLen past (frameMem part) part.length = frameLen
  by_cases h1 : frameLen > part.length
  · rw [if_pos (show frameLen > (holding n part [] false c).bus.ptr from h1), if_pos h1]
    rfl
  · have hload : load (holding n part [] false c).bus.buffer 0 frameLen = part.take frameLen :=
      load_front n.bus.buffer (Nat.le_of_not_lt h1)
    rw [if_neg (show ¬ frameLen > (holding n part [] false c).bus.ptr from h1), if_neg h1, hload]
    rfl

theorem modbusRspTry_part {past : UInt8} (n : Node σ) {frame part : List UInt8}
    (hf : RequestFrame frame) (hp : PartOf part frame) (htaken : ¬ TakenAsRsp past part)
    (c : ClearTask) :
    modbusRspTry past (holding n part [] false c) = (false, holding n part [] false c) := by
  rw [modbusRspTry_holding n hf hp]
  unfold TakenAsRsp at htaken
  generalize modbusRspFrameLen past (frameMem part) part.length = frameLen at htaken
  simp only at htaken ⊢
  by_cases h0 : frameLen = 0
  · rw [if_pos h0]
  rw [if_neg h0, if_neg fun h1 => htaken ⟨h0, .inl h1⟩]
  by_cases h1 : frameLen > part.length
  · exact if_pos h1
  · rw [if_neg h1, if_pos fun h2 => htaken ⟨h0, .inr ⟨Nat.le_of_not_lt h1, h2⟩⟩]

/-- A part that is taken for a response is not kept. -/
theorem modbusRspTry_taken {past : UInt8} {n : Node σ} (hn : n.Idle) {frame part : List UInt8}
    (hf : RequestFrame frame) (hp : PartOf part frame) (htaken : TakenAsRsp past part)
    (c : ClearTask) :
    modbusRspTry past (holding n part [] false c) =
      (true, { holding n part [] false c with bus := { buffered n.bus part with ptr := 0 } }) := by
  rw [modbusRspTry_holding n hf hp]
  unfold TakenAsRsp at htaken
  generalize modbusRspFrameLen past (frameMem part) part.length = frameLen at htaken
  simp only at htaken ⊢
  obtain ⟨h0, h1⟩ := htaken
  rw [if_neg h0]
  by_cases h2 : frameLen > bufferSize
  · rw [if_pos h2]
  · obtain ⟨h3, h4⟩ := h1.resolve_left h2
    rw [if_neg h2, if_neg (Nat.not_lt_of_le h3), if_neg (not_not.mpr h4)]
    unfold Node.reset holding buffered
    simp only [hn.rsp_size]

/-- A part of a frame that is not taken for a response is kept. -/
theorem settle_part (h : Handler σ) (fuel : Nat) {past : UInt8} {n : Node σ} (hn : n.Idle)
    {frame held unread : List UInt8} (hf : RequestFrame frame)
    (hp : PartOf (held ++ unread) frame) (htaken : ¬ TakenAsRsp past (held ++ unread))
    (c : ClearTask) :
    ∃ c', ∀ rounds, settle h fuel past (rounds + 1) (holding n held unread true c) =
      settle h fuel past rounds (holding n (held ++ unread) [] false c') := by
  have hlen := Nat.le_trans (Nat.le_of_lt hp.length_lt) hf.length_le
  have hwork := @onWork_holding _ h fuel past n hn held unread [] c hlen (.inr rfl)
  rw [List.append_nil, modbusReqTry_part h fuel n hf hp, bind_ok] at hwork
  simp only [modbusRspTry_part n hf hp htaken, Bool.false_eq_true, if_false] at hwork
  -- A part that is not empty arms the task `clear`.
  split at hwork
  · refine ⟨if c = .pending then .pending else .waiting, fun rounds => ?_⟩
    rw [settle_work, hwork, bind_ok]
    exact congrArg (settle h fuel past rounds) (holding_drained hn _ _ _ _)
  · refine ⟨c, fun rounds => ?_⟩
    rw [settle_work, hwork, bind_ok, holding_drained hn]

/-- A part of a frame that is taken for a response is lost. -/
theorem settle_taken (h : Handler σ) (fuel rounds : Nat) {past : UInt8} {n : Node σ}
    (hn : n.Idle) {frame held unread : List UInt8} (hf : RequestFrame frame)
    (hp : PartOf (held ++ unread) frame) (htaken : TakenAsRsp past (held ++ unread))
    (c : ClearTask) :
    settle h fuel past (rounds + 1) (holding n held unread true c) =
      settle h fuel past rounds { n with
        bus := { n.bus with buffer := store n.bus.buffer 0 (held ++ unread) }, clear := c } := by
  have hlen := Nat.le_trans (Nat.le_of_lt hp.length_lt) hf.length_le
  have hwork := @onWork_holding _ h fuel past n hn held unread [] c hlen (.inr rfl)
  rw [List.append_nil, modbusReqTry_part h fuel n hf hp, bind_ok] at hwork
  simp only [modbusRspTry_taken hn hf hp htaken, Bool.false_eq_true, if_false, if_true] at hwork
  rw [settle_work, hwork, bind_ok]
  unfold Node.drained holding buffered
  simp [hn.used, hn.ptr, hn.rx, hn.worker]

/-! ### A complete frame -/

/-- A frame is handled, whatever has been read behind it. -/
theorem onWork_frame (h : Handler σ) (fuel : Nat) (past : UInt8) {n : Node σ} (hn : n.Idle)
    {frame extra held bytes unread : List UInt8} (hf : RequestFrame frame)
    (hbytes : held ++ bytes = frame ++ extra) (hlen : (frame ++ extra).length ≤ bufferSize)
    (hfull : (frame ++ extra).length = bufferSize ∨ unread = []) (c : ClearTask) :
    onWork h bufferSize fuel past (holding n held (bytes ++ unread) false c) =
      busReqHandle h frame.length fuel (holding n (frame ++ extra) unread false c) := by
  rw [← hbytes] at hlen hfull
  rw [onWork_holding h fuel past hn c hlen hfull, hbytes]
  have hle : frame.length ≤ (frame ++ extra).length := (List.prefix_append frame extra).length_le
  have hreq : modbusReqFrameLen (holding n (frame ++ extra) unread false c).bus.buffer
      (holding n (frame ++ extra) unread false c).bus.ptr = frame.length :=
    hf.reqFrameLen extra n.bus.buffer
  have hcrc : load (holding n (frame ++ extra) unread false c).bus.buffer 0 frame.length = frame :=
    (load_front n.bus.buffer hle).trans List.take_left
  have hptr : ¬ frame.length > (holding n (frame ++ extra) unread false c).bus.ptr :=
    Nat.not_lt_of_le hle
  rw [modbusReqTry]
  simp only
  rw [hreq, if_neg (Nat.ne_of_gt hf.length_pos), if_neg (Nat.not_lt_of_le hf.length_le),
    if_neg hptr, hcrc, if_neg (not_not.mpr hf.crc)]
  cases busReqHandle h frame.length fuel (holding n (frame ++ extra) unread false c) with
  | error e => rfl
  | ok n1 => rfl

/-- An idle node after a request has been handled. -/
def answered (n : Node σ) (called : Bool) (bus : PrModbus σ) : Node σ :=
  { n with
    bus := { bus with ptr := 0, rspSize := 0 }
    written := n.written ++ if called then load bus.buffer 0 bus.rspSize else []
    responses := n.responses ++ if called then [load bus.buffer 0 bus.rspSize] else [] }

theorem answered_idle {n : Node σ} (hn : n.Idle) (called : Bool) (bus : PrModbus σ) :
    (answered n called bus).Idle :=
  ⟨rfl, rfl, hn.rx, hn.used, hn.worker, hn.room⟩

/-- The response is written in one go, and the transport that takes it wakes the worker. -/
theorem modbusTxTry_whole {n : Node σ} (hn : n.Idle) {bus : PrModbus σ} (hptr : bus.ptr = 0)
    (hpos : 0 < bus.rspSize) (hle : bus.rspSize ≤ bufferSize) (unread : List UInt8)
    (c : ClearTask) :
    let sent := modbusTxTry { n with
      bus := bus, rx := unread, worker := false, clear := c
      responses := n.responses ++ [load bus.buffer 0 bus.rspSize] }
    sent.drained sent.used = holding (answered n true bus) [] unread true c := by
  have htx : min (bus.rspSize - bus.ptr) n.free = bus.rspSize := by
    rw [hptr, Nat.sub_zero]
    exact Nat.min_eq_left (Nat.le_trans hle hn.room)
  have hne : bus.rspSize ≠ 0 := Nat.ne_of_gt hpos
  unfold modbusTxTry
  simp only [htx]
  rw [if_pos (by rw [hptr, Nat.zero_add])]
  unfold Node.execWorker Node.reset Node.drained holding
  rw [buffered_nil rfl]
  have hfree : n.free - bus.rspSize + bus.rspSize = n.free :=
    Nat.sub_add_cancel (Nat.le_trans hle hn.room)
  unfold answered
  simp [hn.used, hptr, hne, hfree]

theorem busReqHandle_answered {h : Handler σ} {size fuel : Nat} {n : Node σ} (hn : n.Idle)
    {bytes : List UInt8} (unread : List UInt8) (c : ClearTask) {called : Bool} {bus : PrModbus σ}
    (hresp : busReqRespond h size fuel (buffered n.bus bytes) = .ok (called, bus)) :
    ∃ n', busReqHandle h size fuel (holding n bytes unread false c) = .ok n' ∧
      n'.drained n'.used = holding (answered n called bus) [] unread called c := by
  have hresp' : busReqRespond h size fuel (holding n bytes unread false c).bus =
      .ok (called, bus) := hresp
  rw [busReqHandle, hresp', bind_ok]
  cases called with
  | false =>
    refine ⟨_, rfl, ?_⟩
    have hbus := busReqRespond_ignored hresp
    unfold Node.drained holding
    rw [buffered_nil rfl]
    unfold answered
    simp [hn.used, hbus, buffered]
  | true =>
    refine ⟨_, rfl, ?_⟩
    obtain ⟨hptr, hpos, hle⟩ := busReqRespond_called hresp
    exact modbusTxTry_whole hn hptr hpos hle unread c

/-- The worker has read up to the end of a frame or behind it. The bytes that are still
in the FIFO are kept. Those that have been read behind the frame are lost. -/
theorem settle_frame {h : Handler σ} {fuel : Nat} (rounds : Nat) (past : UInt8) {n : Node σ}
    (hn : n.Idle) {frame extra held bytes unread : List UInt8} (hf : RequestFrame frame)
    (hbytes : held ++ bytes = frame ++ extra) (hlen : (frame ++ extra).length ≤ bufferSize)
    (hfull : (frame ++ extra).length = bufferSize ∨ unread = []) (c : ClearTask) {called : Bool}
    {bus : PrModbus σ}
    (hresp : busReqRespond h frame.length fuel (buffered n.bus (frame ++ extra)) =
      .ok (called, bus)) :
    settle h fuel past (rounds + 1) (holding n held (bytes ++ unread) true c) =
      settle h fuel past rounds (holding (answered n called bus) [] unread called c) := by
  obtain ⟨n', hreq, hdrained⟩ := busReqHandle_answered hn unread c hresp
  rw [settle_work, onWork_frame h fuel past hn hf hbytes hlen hfull, hreq, bind_ok, hdrained]

theorem settle_nothing (h : Handler σ) (fuel rounds : Nat) (past : UInt8) {n : Node σ}
    (hn : n.Idle) (c : ClearTask) :
    settle h fuel past (rounds + 1) (holding n [] [] true c) =
      settle h fuel past rounds (holding n [] [] false c) := by
  have hlen : ([] ++ [] : List UInt8).length ≤ bufferSize := Nat.zero_le _
  have hwork := @onWork_holding _ h fuel past n hn [] [] [] c hlen (.inr rfl)
  have hreq : modbusReqTry h fuel (holding n [] [] false c) =
      .ok (false, holding n [] [] false c) := rfl
  have hrsp : modbusRspTry past (holding n [] [] false c) = (false, holding n [] [] false c) := rfl
  rw [List.append_nil, hreq, bind_ok] at hwork
  simp only [hrsp, Bool.false_eq_true, if_false] at hwork
  rw [if_neg (show ¬ (holding n [] [] false c).bus.ptr ≠ 0 from not_not.mpr rfl)] at hwork
  rw [settle_work, hwork, bind_ok, holding_drained hn]

/-! ### Rounds of the worker -/

theorem settle_fueled (h : Handler σ) (fuel : Nat) (past : UInt8) (n : Node σ) :
    Fueled fun rounds => settle h fuel past rounds n := by
  intro rounds
  simp only
  induction rounds generalizing n with
  | zero => exact .timeout _
  | succ rounds ih =>
    rw [settle, settle]
    split
    · exact (Approx.refl _).bind fun n1 => ih _
    · exact .refl _

theorem deliverAll_fueled (h : Handler σ) (fuel : Nat) (past : UInt8)
    (deliveries : List (List UInt8)) (n : Node σ) :
    Fueled fun rounds => deliverAll h fuel past rounds deliveries n := by
  intro rounds
  simp only
  induction deliveries generalizing n with
  | nil => exact .refl _
  | cons bytes deliveries ih => exact (settle_fueled h fuel past _ rounds).bind ih

/-- The worker runs until it is idle, and the deliveries come. -/
def goOn (h : Handler σ) (fuel : Nat) (past : UInt8) (deliveries : List (List UInt8))
    (n : Node σ) (rounds : Nat) : Outcome OutOfBounds (Node σ) := do
  let n ← settle h fuel past rounds n
  deliverAll h fuel past rounds deliveries n

theorem goOn_round {h : Handler σ} {fuel : Nat} {past : UInt8} {deliveries : List (List UInt8)}
    {n n' m : Node σ}
    (hround : ∀ rounds, settle h fuel past (rounds + 1) n = settle h fuel past rounds n')
    (hrest : Returns (goOn h fuel past deliveries n') m) :
    Returns (goOn h fuel past deliveries n) m := by
  obtain ⟨rounds, hm⟩ := hrest
  obtain ⟨n1, hset, hall⟩ := bind_eq_ok.mp hm
  refine ⟨rounds + 1, ?_⟩
  rw [goOn, hround, hset, bind_ok]
  exact (deliverAll_fueled h fuel past deliveries n1).ok_mono (Nat.le_succ rounds) hall

theorem goOn_done {h : Handler σ} {fuel : Nat} {past : UInt8} {deliveries : List (List UInt8)}
    {n m : Node σ} {held unread : List UInt8} {c : ClearTask}
    (hrest : Returns
      (fun rounds => deliverAll h fuel past rounds deliveries (holding n held unread false c)) m) :
    Returns (goOn h fuel past deliveries (holding n held unread false c)) m := by
  obtain ⟨rounds, hm⟩ := hrest
  refine ⟨rounds + 1, ?_⟩
  rw [goOn, settle_done, bind_ok]
  exact (deliverAll_fueled h fuel past deliveries _).ok_mono (Nat.le_succ rounds) hm

/-- A worker that has answered is awake even if nothing is left for it to do. -/
theorem goOn_awake {h : Handler σ} {fuel : Nat} {past : UInt8} {deliveries : List (List UInt8)}
    {n m : Node σ} (hn : n.Idle) {unread : List UInt8} {called : Bool} {c : ClearTask}
    (hrest : Returns
      (goOn h fuel past deliveries (holding n [] unread (called && !unread.isEmpty) c)) m) :
    Returns (goOn h fuel past deliveries (holding n [] unread called c)) m := by
  cases unread with
  | nil =>
    cases called with
    | false => exact hrest
    | true => exact goOn_round (fun rounds => settle_nothing h fuel rounds past hn c) hrest
  | cons b unread =>
    rw [List.isEmpty_cons, Bool.not_false, Bool.and_true] at hrest
    exact hrest

theorem settle_last {h : Handler σ} {fuel rounds : Nat} {past : UInt8} {n n1 : Node σ}
    (hn : n.Idle) {awake : Bool} {c : ClearTask}
    (hok : settle h fuel past rounds (holding n [] [] awake c) = .ok n1) :
    n1 = { n with clear := c } := by
  have hdone : Returns (goOn h fuel past [] (holding n [] [] awake c)) { n with clear := c } := by
    refine goOn_awake hn ⟨1, ?_⟩
    rw [List.isEmpty_nil, Bool.not_true, Bool.and_false, goOn, settle_done, bind_ok,
      holding_nil hn, deliverAll]
  obtain ⟨rounds', hset⟩ := hdone
  obtain ⟨n2, hset, hall⟩ := bind_eq_ok.mp hset
  cases hall
  exact (settle_fueled h fuel past _).returns_unique ⟨rounds, hok⟩ ⟨rounds', hset⟩

theorem deliver_alone {h : Handler σ} {fuel rounds : Nat} {past : UInt8} {n n1 : Node σ}
    (hn : n.Idle) {frame : List UInt8} (hf : RequestFrame frame)
    (hok : deliver h fuel past rounds frame n = .ok n1) :
    ∃ called bus, busReqRespond h frame.length fuel (buffered n.bus frame) = .ok (called, bus) ∧
      n1 = answered n called bus := by
  have harrived : n.arrived frame = holding n [] (frame ++ []) true n.clear := by
    have hne : frame.isEmpty = false := List.isEmpty_eq_false_iff.mpr
      (List.ne_nil_of_length_pos hf.length_pos)
    unfold Node.arrived holding
    rw [buffered_nil hn.ptr, hn.rx, hne, List.append_nil, List.nil_append, Bool.not_false,
      Bool.or_true]
  cases rounds with
  | zero => cases hok
  | succ rounds =>
    have hlen : (frame ++ []).length ≤ bufferSize := by
      rw [List.append_nil]
      exact hf.length_le
    have hbytes : [] ++ frame = frame ++ [] := (List.append_nil frame).symm
    rw [deliver, harrived, settle_work,
      onWork_frame h fuel past hn hf hbytes hlen (.inr rfl)] at hok
    -- The run has returned, so the request has been handled.
    obtain ⟨n', hreq, -⟩ := bind_eq_ok.mp hok
    obtain ⟨⟨called, bus⟩, hresp, -⟩ := bind_eq_ok.mp hreq
    rw [← onWork_frame h fuel past hn hf hbytes hlen (.inr rfl), ← settle_work,
      settle_frame rounds past hn hf hbytes hlen (.inr rfl) n.clear hresp] at hok
    refine ⟨called, bus, by rw [List.append_nil] at hresp; exact hresp, ?_⟩
    exact settle_last (answered_idle hn called bus) hok

theorem called_eq {h : Handler σ} {fuel : Nat} {s bus : PrModbus σ} {frame : List UInt8}
    {called : Bool} (hf : RequestFrame frame)
    (hresp : busReqRespond h frame.length fuel (buffered s frame) = .ok (called, bus)) :
    called = decide (frame.head? = some s.addr) ∧ bus.addr = s.addr := by
  obtain ⟨hcalled, haddr⟩ := busReqRespond_addr h frame.length fuel (buffered s frame) _ hresp
  refine ⟨?_, haddr⟩
  cases frame with
  | nil => exact absurd hf.length_pos (Nat.lt_irrefl 0)
  | cons b frame =>
    have hfirst : (buffered s (b :: frame)).buffer 0 = b := by
      simp [buffered, store]
    have hcalled : called = decide ((buffered s (b :: frame)).buffer 0 = s.addr) := hcalled
    rw [hcalled, hfirst, List.head?_cons]
    exact decide_eq_decide.mpr Option.some_inj.symm

end StreamLemmas

open StreamLemmas

/-! ## 3. Main result -/

/-- The deliveries of such a run are a cut of the bytes of the frames. -/
theorem CleanRun.flatten_eq {past addr : UInt8} {awake : Bool} {held unread : List UInt8}
    {frames deliveries : List (List UInt8)}
    (hclean : CleanRun past addr awake held unread frames deliveries) :
    held ++ (unread ++ deliveries.flatten) = frames.flatten := by
  induction hclean with
  | done => rfl
  | delivery _ ih => rw [← ih, List.flatten_cons, List.append_assoc]
  | part _ _ _ ih => rw [← ih, List.nil_append, List.append_assoc]
  | whole hframe _ _ ih => rw [List.flatten_cons, ← ih, ← hframe]; simp

/-- A run in which nothing is lost ends where the run through the frames does, but for
the task `clear`. -/
theorem cleanRun_same {h : Handler σ} {fuel : Nat} {past addr : UInt8} {awake : Bool}
    {held unread : List UInt8} {frames deliveries : List (List UInt8)}
    (hclean : CleanRun past addr awake held unread frames deliveries)
    (hframes : ∀ frame ∈ frames, RequestFrame frame) {n n1 : Node σ} (hn : n.Idle)
    (haddr : n.bus.addr = addr)
    (halone : Returns (fun rounds => deliverAll h fuel past rounds frames n) n1) (c : ClearTask) :
    ∃ c', Returns (goOn h fuel past deliveries (holding n held unread awake c))
      { n1 with clear := c' } := by
  -- `n` is the idle node before the frame that is being received.
  induction hclean generalizing n c with
  | done =>
    obtain ⟨rounds, hall⟩ := halone
    cases hall
    exact ⟨c, 1, by rw [goOn, settle_done, bind_ok, holding_nil hn, deliverAll]⟩
  | delivery _ ih =>
    obtain ⟨c', hrest⟩ := ih hframes hn haddr halone c
    exact ⟨c', goOn_done hrest⟩
  | part hp htaken _ ih =>
    have hf := hframes _ List.mem_cons_self
    obtain ⟨c1, hround⟩ := settle_part h fuel hn hf hp htaken c
    obtain ⟨c', hrest⟩ := ih hframes hn haddr halone c1
    exact ⟨c', goOn_round hround hrest⟩
  | @whole held rest unread frame frames deliveries hframe hfull _ ih =>
    have hf := hframes _ List.mem_cons_self
    obtain ⟨rounds, hall⟩ := halone
    obtain ⟨n2, hfirst, hall⟩ := bind_eq_ok.mp hall
    obtain ⟨called, bus, hresp, rfl⟩ := deliver_alone hn hf hfirst
    obtain ⟨hcalled, hbus⟩ := called_eq hf hresp
    have hidle := answered_idle hn called bus
    obtain ⟨c', hrest⟩ := ih (fun f hmem => hframes f (List.mem_cons_of_mem _ hmem)) hidle
      (hbus.trans haddr) ⟨rounds, hall⟩ c
    rw [← haddr, ← hcalled] at hrest
    refine ⟨c', ?_⟩
    have hround (rounds : Nat) :
        settle h fuel past (rounds + 1) (holding n held (rest ++ unread) true c) =
          settle h fuel past rounds (holding (answered n called bus) [] unread called c) := by
      have hbytes : held ++ rest = frame ++ [] := by rw [hframe, List.append_nil]
      refine settle_frame rounds past hn hf hbytes ?_ ?_ c ?_
      · rw [List.append_nil]
        exact hf.length_le
      · rw [List.append_nil]
        exact hfull
      · rw [List.append_nil]
        exact hresp
    exact goOn_round hround (goOn_awake hidle hrest)

/-- Deliveries by which nothing is lost are handled as when each frame is delivered alone: in the
end the unit has made the same calls and the same responses. -/
theorem stream_same (h : Handler σ) (fuel : Nat) {past : UInt8}
    {frames : List (List UInt8)} (hframes : ∀ frame ∈ frames, RequestFrame frame)
    {deliveries : List (List UInt8)} {n : Node σ}
    (hclean : CleanRun past n.bus.addr false [] [] frames deliveries) (hn : n.Idle) :
    SameAsAlone h fuel past frames deliveries n := by
  intro n1 halone
  obtain ⟨c, hrest⟩ := cleanRun_same hclean hframes hn rfl halone n.clear
  rw [holding_nil hn] at hrest
  obtain ⟨rounds, hrun⟩ := hrest
  obtain ⟨n2, hset, hall⟩ := bind_eq_ok.mp hrun
  cases rounds with
  | zero => cases hset
  | succ rounds =>
    rw [settle, if_neg (by rw [hn.worker]; exact Bool.false_ne_true)] at hset
    cases hset
    exact ⟨_, ⟨rounds + 1, hall⟩, rfl, rfl⟩


namespace StreamLemmas

/-- A handler with one coil and one holding register. -/
def oneCoil : Handler Unit :=
  ⟨none, none, some fun app _ _ => (modbusOk, app), some fun app _ => (modbusOk, 0x1234, app),
    none, none, none⟩

def started : Node Unit :=
  ⟨⟨1, fun _ => 0, 0, 0, (), []⟩, [], 256, 0, false, .idle, [], []⟩

theorem started_idle : started.Idle := ⟨rfl, rfl, rfl, rfl, rfl, Nat.le_refl 256⟩

def setCoil : List UInt8 := withCrc [1, 5, 0, 0, 0xff, 0]

theorem setCoil_frame : RequestFrame setCoil := by
  constructor <;> decide +kernel

def readHigh : List UInt8 := withCrc [1, 3, 0xfc, 0, 0, 1]

theorem readHigh_frame : RequestFrame readHigh := by
  constructor <;> decide +kernel

theorem halves_clean : CleanRun 0 1 false [] [] [setCoil] [setCoil.take 3, setCoil.drop 3] := by
  have hpart : PartOf (setCoil.take 3) setCoil := ⟨List.take_prefix 3 setCoil, by decide +kernel⟩
  have htaken : ¬ TakenAsRsp 0 (setCoil.take 3) := by decide +kernel
  refine .delivery (.part hpart htaken (.delivery ?_))
  have hrest : CleanRun 0 1 true (setCoil.take 3) (setCoil.drop 3 ++ []) [setCoil] [] :=
    .whole (List.take_append_drop 3 setCoil) (.inr rfl) .done
  rwa [List.append_nil] at hrest

theorem not_same_of_written {h : Handler σ} {fuel rounds : Nat} {past : UInt8}
    {frames deliveries : List (List UInt8)} {n : Node σ} {w1 w2 : List UInt8}
    (h1 : (deliverAll h fuel past rounds frames n).toOption.map Node.written = some w1)
    (h2 : (deliverAll h fuel past rounds deliveries n).toOption.map Node.written = some w2)
    (hne : w2 ≠ w1) : ¬ SameAsAlone h fuel past frames deliveries n := by
  intro hsame
  cases halone : deliverAll h fuel past rounds frames n with
  | error e =>
    rw [halone] at h1
    cases h1
  | ok n1 =>
    rw [halone] at h1
    cases hrun : deliverAll h fuel past rounds deliveries n with
    | error e =>
      rw [hrun] at h2
      cases h2
    | ok n2 =>
      rw [hrun] at h2
      obtain ⟨n3, hall, -, hwritten⟩ := hsame n1 ⟨rounds, halone⟩
      obtain rfl := (deliverAll_fueled h fuel past deliveries n).returns_unique hall ⟨rounds, hrun⟩
      refine hne ?_
      rw [← Option.some.inj h1, ← Option.some.inj h2]
      exact hwritten

end StreamLemmas

open StreamLemmas in
theorem stream_same_halves :
    (∀ frame ∈ [setCoil], RequestFrame frame) ∧
    CleanRun 0 started.bus.addr false [] [] [setCoil] [setCoil.take 3, setCoil.drop 3] ∧
    started.Idle ∧
    SameAsAlone oneCoil 0 0 [setCoil] [setCoil.take 3, setCoil.drop 3] started := by
  have hframes : ∀ frame ∈ [setCoil], RequestFrame frame := by
    intro frame hframe
    rw [List.mem_singleton.mp hframe]
    exact setCoil_frame
  exact ⟨hframes, halves_clean, started_idle,
    stream_same oneCoil 0 hframes halves_clean started_idle⟩

open StreamLemmas in
/-- Two requests in one delivery: the second one is lost. A request to read a high
address that is cut after five bytes: they seem to be a response of 257 bytes, and the
request is lost. -/
theorem stream_differs :
    RequestFrame setCoil ∧ RequestFrame readHigh ∧ started.Idle ∧
    ¬ SameAsAlone oneCoil 0 0 [setCoil, setCoil] [setCoil ++ setCoil] started ∧
    ¬ SameAsAlone oneCoil 0 0 [readHigh] [readHigh.take 5, readHigh.drop 5] started := by
  refine ⟨setCoil_frame, readHigh_frame, started_idle, ?_, ?_⟩
  · exact @not_same_of_written _ _ _ 3 _ _ _ _ (setCoil ++ setCoil) setCoil (by decide +kernel)
      (by decide +kernel) (by decide +kernel)
  · exact @not_same_of_written _ _ _ 3 _ _ _ _ (withCrc [1, 3, 2, 0x12, 0x34]) []
      (by decide +kernel) (by decide +kernel) (by decide +kernel)

end Picore.Modbus
