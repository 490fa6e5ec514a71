import Picore.Cdc.Strand
import Picore.Fifo.ZeroCopy

/-!
# The bytes of both directions

The bridge takes bytes from `to_usb` for the host and puts those of the host into `from_usb`, with
prepare and done around a call of TinyUSB. What TinyUSB is given and gives is recorded, and so is
what the application writes and reads. `test/usb_loopback/main.c` uses one FIFO for both.

Results:
1. `Carried`: a FIFO with the bytes that went in and came out, in a state of a zero-copy transfer.
2. `step_flows`: one step of the bridge is some steps of both transfers.
3. `bridge_flow`: the bytes of both directions in every run.
4. `loopback_echo`: the host gets its own bytes back.
-/

namespace Picore.Cdc

open Memory Transition
open Picore.Fifo
open Picore.Fifo.ZeroCopy (Reservation zeroCopy)

variable {ι : Type}

/-! ## 1. One FIFO -/

/-- A FIFO in which one side has put `stored` and the other has taken `loaded`, with what both
still hold. -/
def Carried (f : PrFifo ι) (producer consumer : Reservation) (stored loaded : List UInt8) : Prop :=
  ∃ size, (zeroCopy ι size).Reachable ⟨f, producer, consumer, stored, loaded⟩

namespace FlowLemmas

variable {f : PrFifo ι} {producer consumer : Reservation} {stored loaded : List UInt8}

theorem carried_init (mem : Mem UInt8) (size : Nat) (consumer producer : Option ι) :
    Carried (prFifoProducerSet (prFifoConsumerSet (prFifoInit mem size) consumer) producer)
      .closed .closed [] [] :=
  ⟨size, .init ⟨mem, consumer, producer, rfl⟩⟩

theorem carried_readPrepare (h : Carried f producer .closed stored loaded) (n : Nat) :
    Carried (prFifoReadPrepare f n).2.2 producer
      (.prepared (prFifoReadPrepare f n).2.1 (prFifoReadPrepare f n).1) stored loaded := by
  obtain ⟨size, hreach⟩ := h
  exact ⟨size, hreach.step (show ZeroCopy.step _ (.readPrepare n) = some _ from rfl)⟩

theorem carried_readDone {pos k : Nat} (h : Carried f producer (.prepared pos k) stored loaded) :
    Carried (prFifoReadDone f k).1 producer .closed stored (loaded ++ load f.buffer pos k) := by
  obtain ⟨size, hreach⟩ := h
  have hload := hreach.step (show ZeroCopy.step _ .load = some _ from rfl)
  exact ⟨size, hload.step (show ZeroCopy.step _ .readDone = some _ from rfl)⟩

theorem carried_writePrepare (h : Carried f .closed consumer stored loaded) (n : Nat) :
    Carried (prFifoWritePrepare f n).2.2
      (.prepared (prFifoWritePrepare f n).2.1 (prFifoWritePrepare f n).1) consumer stored
      loaded := by
  obtain ⟨size, hreach⟩ := h
  exact ⟨size, hreach.step (show ZeroCopy.step _ (.writePrepare n) = some _ from rfl)⟩

theorem carried_writeDone {pos k : Nat} (h : Carried f (.prepared pos k) consumer stored loaded)
    {data : List UInt8} (hdata : data.length = k) :
    Carried (prFifoWriteDone { f with buffer := store f.buffer pos data } k).1 .closed consumer
      (stored ++ data) loaded := by
  obtain ⟨size, hreach⟩ := h
  have hstore := hreach.step (show ZeroCopy.step _ (.store data) = some _ from if_pos hdata)
  exact ⟨size, hstore.step (show ZeroCopy.step _ .writeDone = some _ from rfl)⟩

/-- What comes out is what went in, in order, and all of it when the FIFO is empty. -/
theorem Carried.inOrder (h : Carried f producer consumer stored loaded) :
    loaded <+: stored ∧
      (f.used = 0 → producer.count = 0 → consumer.count = 0 → loaded = stored) := by
  obtain ⟨size, hreach⟩ := h
  obtain ⟨C, D, hinv⟩ := ZeroCopy.reachable_inv hreach
  exact ZeroCopy.inv_inOrder hinv

end FlowLemmas

/-! ## 2. The bridge -/

/-- The bridge, the `tr_data` of `to_usb_try_send`, and the bytes of both directions: those that
the application has `written` and that TinyUSB was given, and those that TinyUSB gave and that
the application has `read`. -/
structure Flow (ι : Type) where
  bridge : Bridge ι
  trData : Nat
  written : List UInt8
  sent : List UInt8
  got : List UInt8
  read : List UInt8

variable [DecidableEq ι]

def Flow.moved (t : Flow ι) : Act ι → Flow ι
  | .write data =>
    { t with
      written := t.written ++ data.take (prFifoWritePrepare t.bridge.toUsb data.length).1 }
  | .read n =>
    let (size, src, _) := prFifoReadPrepare t.bridge.fromUsb n
    { t with read := t.read ++ load t.bridge.fromUsb.buffer src size }
  | .handler usb =>
    match t.bridge.run with
    | .sendPrepare usbFree => { t with trData := (prFifoReadPrepare t.bridge.toUsb usbFree).2.1 }
    | .sendWrite trSize => { t with sent := t.sent ++ load t.bridge.toUsb.buffer t.trData trSize }
    | .recvRead _ trSize => { t with got := t.got ++ (List.range trSize).map usb.rx }
    | _ => t
  | _ => t

def Flow.step (t : Flow ι) (a : Act ι) : Option (Flow ι) :=
  (Cdc.step t.bridge a).map fun s => { t.moved a with bridge := s }

/-- The bridge with two FIFOs that have just been initialised. -/
def flow : Lts (Flow ι) (Act ι) :=
  Lts.ofFun
    (fun t => ∃ handler m size m' size' onEvent ctsrts status connected callback,
      t.bridge = prCdcInterfaceInit handler (prFifoInit m size) (prFifoInit m' size') onEvent ctsrts
        status connected callback ∧
      t.written = [] ∧ t.sent = [] ∧ t.got = [] ∧ t.read = [])
    Flow.step

/-- What the handler holds of `to_usb`. -/
def Run.sending (trData : Nat) : Run → Reservation
  | .sendWrite trSize => .prepared trData trSize
  | _ => .closed

/-- What the handler holds of `from_usb`. -/
def Run.receiving : Run → Reservation
  | .recvRead trData trSize => .prepared trData trSize
  | _ => .closed

namespace FlowLemmas

/-- Both directions are zero-copy transfers through their FIFOs: `to_usb` from what was written to
what was sent to the host, `from_usb` from what came from the host to what was read. -/
structure Flows (t : Flow ι) : Prop where
  to_usb : Carried t.bridge.toUsb .closed (t.bridge.run.sending t.trData) t.written t.sent
  from_usb : Carried t.bridge.fromUsb t.bridge.run.receiving .closed t.got t.read

omit [DecidableEq ι] in
theorem Flows.congr {t : Flow ι} (h : Flows t) {s : Bridge ι} (hto : s.toUsb = t.bridge.toUsb)
    (hfrom : s.fromUsb = t.bridge.fromUsb)
    (hsending : s.run.sending t.trData = t.bridge.run.sending t.trData)
    (hreceiving : s.run.receiving = t.bridge.run.receiving) : Flows { t with bridge := s } := by
  refine ⟨?_, ?_⟩
  · show Carried s.toUsb .closed (s.run.sending t.trData) t.written t.sent
    rw [hto, hsending]
    exact h.to_usb
  · show Carried s.fromUsb s.run.receiving .closed t.got t.read
    rw [hfrom, hreceiving]
    exact h.from_usb

@[simp] theorem exec_toUsb (s : Bridge ι) (task : Option ι) :
    (s.exec task).toUsb = s.toUsb := by
  cases task <;> rfl

@[simp] theorem exec_fromUsb (s : Bridge ι) (task : Option ι) :
    (s.exec task).fromUsb = s.fromUsb := by
  cases task <;> rfl

@[simp] theorem exec_running (s : Bridge ι) (task : Option ι) : (s.exec task).run = s.run := by
  cases task <;> rfl

theorem handler_flows {t : Flow ι} (h : Flows t) (usb : Usb) :
    Flows { t.moved (.handler usb) with bridge := t.bridge.handlerStep usb } := by
  obtain ⟨s, trData, written, sent, got, read⟩ := t
  have hto := h.to_usb
  have hfrom := h.from_usb
  simp only at hto hfrom
  cases hrun : s.run with
  | idle =>
    simp only [Flow.moved, Bridge.handlerStep, hrun]
    exact h
  | start =>
    simp only [Flow.moved, Bridge.handlerStep, hrun]
    rw [hrun] at hto hfrom
    split
    · split
      · exact ⟨hto, hfrom⟩
      · exact ⟨hto, hfrom⟩
    · split
      · exact ⟨hto, hfrom⟩
      · exact ⟨hto, hfrom⟩
  | send =>
    simp only [Flow.moved, Bridge.handlerStep, hrun]
    rw [hrun] at hto hfrom
    split
    · exact ⟨hto, hfrom⟩
    · exact ⟨hto, hfrom⟩
  | sendPrepare usbFree =>
    simp only [Flow.moved, Bridge.handlerStep, hrun]
    rw [hrun] at hto hfrom
    have hprepared := carried_readPrepare hto usbFree
    split
    · next hsize =>
      -- Nothing is granted, so nothing is held.
      rw [hsize] at hprepared
      have hdone := carried_readDone hprepared
      rw [load_zero, List.append_nil] at hdone
      exact ⟨hdone, hfrom⟩
    · exact ⟨hprepared, hfrom⟩
  | sendWrite trSize =>
    simp only [Flow.moved, Bridge.handlerStep, hrun]
    rw [hrun] at hto hfrom
    refine ⟨?_, ?_⟩
    · simp only [exec_toUsb]
      exact carried_readDone hto
    · simp only [exec_fromUsb]
      exact hfrom
  | sendCheck trSize =>
    simp only [Flow.moved, Bridge.handlerStep, hrun]
    rw [hrun] at hto hfrom
    by_cases hused : s.toUsb.used = 0
    · simp only [if_pos hused]
      exact ⟨hto, hfrom⟩
    · simp only [if_neg hused]
      exact ⟨hto, hfrom⟩
  | recv =>
    simp only [Flow.moved, Bridge.handlerStep, hrun]
    rw [hrun] at hto hfrom
    split
    · exact ⟨hto, hfrom⟩
    · exact ⟨hto, hfrom⟩
  | recvPrepare usbAvailable =>
    simp only [Flow.moved, Bridge.handlerStep, hrun]
    rw [hrun] at hto hfrom
    exact ⟨hto, carried_writePrepare hfrom usbAvailable⟩
  | recvRead trData' trSize =>
    simp only [Flow.moved, Bridge.handlerStep, hrun]
    rw [hrun] at hto hfrom
    have hlen : ((List.range trSize).map usb.rx).length = trSize := by
      rw [List.length_map, List.length_range]
    have hdone := carried_writeDone hfrom hlen
    refine ⟨?_, ?_⟩
    · simp only [exec_toUsb]
      exact hto
    · simp only [exec_fromUsb]
      exact hdone
  | delay =>
    simp only [Flow.moved, Bridge.handlerStep, hrun]
    rw [hrun] at hto hfrom
    exact ⟨hto, hfrom⟩
  | finish =>
    simp only [Flow.moved, Bridge.handlerStep, hrun]
    rw [hrun] at hto hfrom
    split
    · exact ⟨hto, hfrom⟩
    · refine ⟨?_, ?_⟩
      · simp only [exec_toUsb]
        exact hto
      · simp only [exec_fromUsb]
        exact hfrom

omit [DecidableEq ι] in
theorem writePrepare_le (f : PrFifo ι) (n : Nat) : (prFifoWritePrepare f n).1 ≤ n := by
  unfold prFifoWritePrepare
  lift_lets
  intro size wptr size'
  have hsize : size ≤ n := by
    unfold size
    split
    · exact Nat.le_of_lt ‹_›
    · exact Nat.le_refl n
  have hsize' : size' ≤ size := by
    unfold size'
    split
    · exact Nat.le_of_lt ‹_›
    · exact Nat.le_refl size
  split
  · exact hsize'.trans hsize
  · exact hsize'.trans hsize

theorem write_flows {t : Flow ι} (h : Flows t) (data : List UInt8) :
    Flows { t.moved (.write data) with bridge := t.bridge.writeRound data } := by
  have hlen : (data.take (prFifoWritePrepare t.bridge.toUsb data.length).1).length =
      (prFifoWritePrepare t.bridge.toUsb data.length).1 := by
    rw [List.length_take]
    exact Nat.min_eq_left (writePrepare_le _ _)
  have hdone := carried_writeDone (carried_writePrepare h.to_usb data.length) hlen
  refine ⟨?_, ?_⟩
  · simp only [Bridge.writeRound, exec_toUsb, exec_running]
    exact hdone
  · simp only [Bridge.writeRound, exec_fromUsb, exec_running]
    exact h.from_usb

theorem read_flows {t : Flow ι} (h : Flows t) (n : Nat) :
    Flows { t.moved (.read n) with bridge := t.bridge.readRound n } := by
  have hdone := carried_readDone (carried_readPrepare h.from_usb n)
  have hbuffer : (prFifoReadPrepare t.bridge.fromUsb n).2.2.buffer = t.bridge.fromUsb.buffer := by
    unfold prFifoReadPrepare
    lift_lets
    intro _ rptr size
    simp only [apply_ite Prod.snd, apply_ite PrFifo.buffer, ite_self]
  rw [hbuffer] at hdone
  refine ⟨?_, ?_⟩
  · simp only [Bridge.readRound, exec_toUsb, exec_running]
    exact h.to_usb
  · simp only [Bridge.readRound, exec_fromUsb, exec_running]
    exact hdone

theorem init_flows {t : Flow ι} (ht : flow.init t) : Flows t := by
  obtain ⟨handler, m, size, m', size', onEvent, ctsrts, status, connected, callback, hbridge,
    hwritten, hsent, hgot, hread⟩ := ht
  refine ⟨?_, ?_⟩
  · rw [hbridge, hwritten, hsent]
    exact carried_init m size (some handler) none
  · rw [hbridge, hgot, hread]
    exact carried_init m' size' none (some handler)

end FlowLemmas

open FlowLemmas

theorem step_flows {t u : Flow ι} {a : Act ι} (h : Flows t) (hstep : t.step a = some u) :
    Flows u := by
  obtain ⟨s, hs, rfl⟩ := Option.map_eq_some_iff.mp hstep
  cases a with
  | host connected =>
    simp only [step, Option.ite_none_left_eq_some, Option.some.injEq] at hs
    obtain ⟨-, rfl⟩ := hs
    exact h.congr rfl rfl rfl rfl
  | lineState rts =>
    simp only [step, Option.ite_none_right_eq_some, Option.some.injEq] at hs
    obtain ⟨-, rfl⟩ := hs
    rw [lineState_eq]
    refine h.congr ?_ ?_ ?_ ?_
    · rw [exec_toUsb]
    · rw [exec_fromUsb]
    · rw [exec_running]
    · rw [exec_running]
  | lineCoding lc =>
    cases hs
    refine h.congr ?_ ?_ ?_ ?_
    · rw [tudCdcLineCodingCb, exec_toUsb]
    · rw [tudCdcLineCodingCb, exec_fromUsb]
    · rw [tudCdcLineCodingCb, exec_running]
    · rw [tudCdcLineCodingCb, exec_running]
  | txComplete =>
    cases hs
    exact h.congr rfl rfl rfl rfl
  | rx =>
    cases hs
    exact h.congr rfl rfl rfl rfl
  | expire v =>
    cases hs
    exact h.congr rfl rfl rfl rfl
  | run v =>
    simp only [step] at hs
    split at hs
    · split at hs
      · split at hs
        · next hidle =>
          cases hs
          refine h.congr rfl rfl ?_ ?_
          · rw [hidle]
            rfl
          · rw [hidle]
            rfl
        · cases hs
      · cases hs
        exact h.congr rfl rfl rfl rfl
    · cases hs
  | handler usb =>
    simp only [step, Option.ite_none_left_eq_some, Option.some.injEq] at hs
    obtain ⟨-, rfl⟩ := hs
    exact handler_flows h usb
  | write data =>
    cases hs
    exact write_flows h data
  | read n =>
    cases hs
    exact read_flows h n

theorem reachable_flows {t : Flow ι} (h : flow.Reachable t) : Flows t :=
  h.invariant (I := Flows) (fun _ ht => init_flows ht) fun _ _ _ ht hs => step_flows ht hs

omit [DecidableEq ι] in
theorem not_held {t : Flow ι} (h : t.bridge.run = .idle) :
    (t.bridge.run.sending t.trData).count = 0 ∧ t.bridge.run.receiving.count = 0 := by
  rw [h]
  exact ⟨rfl, rfl⟩

/-- In every run, under every order of host events, callbacks, alarms, tasks and calls of the
application, the host gets the bytes that the application has written, and the application those
that the host has sent, each in order, none twice and none left out. Outside of the handler, an
empty FIFO means that all of them have arrived. -/
theorem bridge_flow {t : Flow ι} (h : flow.Reachable t) :
    (t.sent <+: t.written ∧ t.read <+: t.got) ∧
      (t.bridge.run = .idle → (t.bridge.toUsb.used = 0 → t.sent = t.written) ∧
        (t.bridge.fromUsb.used = 0 → t.read = t.got)) := by
  have hflows := reachable_flows h
  obtain ⟨hsent, hall⟩ := Carried.inOrder hflows.to_usb
  obtain ⟨hread, hall'⟩ := Carried.inOrder hflows.from_usb
  refine ⟨⟨hsent, hread⟩, fun hidle => ?_⟩
  obtain ⟨hsending, hreceiving⟩ := not_held hidle
  exact ⟨fun hused => hall hused rfl hsending, fun hused => hall' hused hreceiving rfl⟩

namespace FlowLemmas

def freshFlow : Flow Bool where
  bridge := prCdcInterfaceInit true (prFifoInit (fun _ => 0) 4) (prFifoInit (fun _ => 0) 4)
    (some false) false (fun _ => .idle) true false
  trData := 0
  written := []
  sent := []
  got := []
  read := []

/-- TinyUSB has room for two bytes, and has got one. -/
def twoOut : Usb := ⟨2, 1, fun _ => 7⟩

/-- The handler runs, until it has sent and received. -/
def sendsTwo : List (Act Bool) :=
  .write [1, 2, 3] :: .run true :: List.replicate 10 (.handler twoOut)

end FlowLemmas

theorem bridge_flow_sends : ∃ t : Flow Bool, flow.Reachable t ∧ t.bridge.run = .idle ∧
    t.written = [1, 2, 3] ∧ t.sent = [1, 2] ∧ t.got = [7] ∧ t.sent <+: t.written ∧
    t.read <+: t.got := by
  have hinit : flow.Reachable freshFlow :=
    .init ⟨true, _, 4, _, 4, some false, false, _, true, false, rfl, rfl, rfl, rfl, rfl⟩
  have hrun : (exec Flow.step freshFlow sendsTwo).map
      (fun t => (t.bridge.run, t.written, t.sent, t.got)) =
        some (.idle, [1, 2, 3], [1, 2], [7]) := by decide
  obtain ⟨t, ht, hfields⟩ := Option.map_eq_some_iff.mp hrun
  simp only [Prod.mk.injEq] at hfields
  obtain ⟨hidle, hwritten, hsent, hgot⟩ := hfields
  have hreach := Lts.reachable_exec hinit ht
  exact ⟨t, hreach, hidle, hwritten, hsent, hgot, (bridge_flow hreach).1⟩

/-! ## 3. One FIFO for both -/

/-- The bridge with one FIFO, which the handler has changed as `from_usb` or as `to_usb`. -/
def Bridge.joined (r : Run) (s : Bridge ι) : Bridge ι :=
  match r with
  | .recvPrepare _ | .recvRead _ _ => { s with toUsb := s.fromUsb }
  | _ => { s with fromUsb := s.toUsb }

/-- One step of `test/usb_loopback/main.c`. Nobody else uses the FIFO, and `on_cdc_event` resets
the events. -/
def Flow.loopStep (t : Flow ι) (a : Act ι) : Option (Flow ι) :=
  match a with
  | .write _ | .read _ => none
  | .run u => (Cdc.step t.bridge a).map fun s =>
    { t with bridge := if t.bridge.onEvent = some u then { s with events := 0 } else s }
  | a => (Cdc.step t.bridge a).map fun s =>
    { t.moved a with bridge := s.joined t.bridge.run }

/-- The loopback. The handler is the consumer and the producer of its FIFO. -/
def loopback : Lts (Flow ι) (Act ι) :=
  Lts.ofFun
    (fun t => ∃ handler onEvent m size fifo ctsrts status connected callback,
      fifo = prFifoProducerSet (prFifoConsumerSet (prFifoInit m size) (some handler))
        (some handler) ∧ onEvent ≠ handler ∧
      t.bridge = prCdcInterfaceInit handler fifo fifo (some onEvent) ctsrts status connected
        callback ∧
      t.sent = [] ∧ t.got = [])
    Flow.loopStep

namespace FlowLemmas

/-- The FIFO carries what the host sends back to it. -/
structure Loops (t : Flow ι) : Prop where
  same : t.bridge.fromUsb = t.bridge.toUsb
  carried : Carried t.bridge.toUsb t.bridge.run.receiving (t.bridge.run.sending t.trData) t.got
    t.sent

omit [DecidableEq ι] in
/-- A step that leaves the FIFOs and the handler alone. -/
theorem Loops.joined {t : Flow ι} (h : Loops t) {s : Bridge ι} (hto : s.toUsb = t.bridge.toUsb)
    (hfrom : s.fromUsb = t.bridge.fromUsb) (hrun : s.run = t.bridge.run) :
    Loops { t with bridge := s.joined t.bridge.run } := by
  have hcarried : Carried t.bridge.toUsb s.run.receiving (s.run.sending t.trData) t.got t.sent := by
    rw [hrun]
    exact h.carried
  have hsame : s.fromUsb = s.toUsb := by rw [hto, hfrom, h.same]
  unfold Bridge.joined
  split
  all_goals
    refine ⟨rfl, ?_⟩
    simp only
    first
    | rw [hfrom, h.same]
      exact hcarried
    | rw [hto]
      exact hcarried

omit [DecidableEq ι] in
theorem Loops.congr {t : Flow ι} (h : Loops t) {s : Bridge ι} (hto : s.toUsb = t.bridge.toUsb)
    (hfrom : s.fromUsb = t.bridge.fromUsb)
    (hsending : s.run.sending t.trData = t.bridge.run.sending t.trData)
    (hreceiving : s.run.receiving = t.bridge.run.receiving) : Loops { t with bridge := s } := by
  refine ⟨?_, ?_⟩
  · show s.fromUsb = s.toUsb
    rw [hto, hfrom]
    exact h.same
  · show Carried s.toUsb s.run.receiving (s.run.sending t.trData) t.got t.sent
    rw [hto, hsending, hreceiving]
    exact h.carried

theorem handler_loops {t : Flow ι} (h : Loops t) (usb : Usb) :
    Loops { t.moved (.handler usb) with
      bridge := (t.bridge.handlerStep usb).joined t.bridge.run } := by
  obtain ⟨s, trData, written, sent, got, read⟩ := t
  have hsame := h.same
  have hcarried := h.carried
  simp only at hsame hcarried
  cases hrun : s.run with
  | idle =>
    simp only [Flow.moved, Bridge.handlerStep, Bridge.joined, hrun]
    rw [hrun] at hcarried
    exact ⟨rfl, hcarried⟩
  | start =>
    simp only [Flow.moved, Bridge.handlerStep, Bridge.joined, hrun]
    rw [hrun] at hcarried
    split
    · split
      · exact ⟨rfl, hcarried⟩
      · exact ⟨rfl, hcarried⟩
    · split
      · exact ⟨rfl, hcarried⟩
      · exact ⟨rfl, hcarried⟩
  | send =>
    simp only [Flow.moved, Bridge.handlerStep, Bridge.joined, hrun]
    rw [hrun] at hcarried
    split
    · exact ⟨rfl, hcarried⟩
    · exact ⟨rfl, hcarried⟩
  | sendPrepare usbFree =>
    simp only [Flow.moved, Bridge.handlerStep, Bridge.joined, hrun]
    rw [hrun] at hcarried
    have hprepared := carried_readPrepare hcarried usbFree
    split
    · next hsize =>
      rw [hsize] at hprepared
      have hdone := carried_readDone hprepared
      rw [load_zero, List.append_nil] at hdone
      exact ⟨rfl, hdone⟩
    · exact ⟨rfl, hprepared⟩
  | sendWrite trSize =>
    simp only [Flow.moved, Bridge.handlerStep, Bridge.joined, hrun]
    rw [hrun] at hcarried
    refine ⟨rfl, ?_⟩
    simp only [exec_toUsb]
    exact carried_readDone hcarried
  | sendCheck trSize =>
    simp only [Flow.moved, Bridge.handlerStep, Bridge.joined, hrun]
    rw [hrun] at hcarried
    by_cases hused : s.toUsb.used = 0
    · simp only [if_pos hused]
      exact ⟨rfl, hcarried⟩
    · simp only [if_neg hused]
      exact ⟨rfl, hcarried⟩
  | recv =>
    simp only [Flow.moved, Bridge.handlerStep, Bridge.joined, hrun]
    rw [hrun] at hcarried
    split
    · exact ⟨rfl, hcarried⟩
    · exact ⟨rfl, hcarried⟩
  | recvPrepare usbAvailable =>
    simp only [Flow.moved, Bridge.handlerStep, Bridge.joined, hrun]
    rw [hrun, ← hsame] at hcarried
    exact ⟨rfl, carried_writePrepare hcarried usbAvailable⟩
  | recvRead trData' trSize =>
    simp only [Flow.moved, Bridge.handlerStep, Bridge.joined, hrun]
    rw [hrun, ← hsame] at hcarried
    have hlen : ((List.range trSize).map usb.rx).length = trSize := by
      rw [List.length_map, List.length_range]
    refine ⟨rfl, ?_⟩
    simp only [exec_fromUsb]
    exact carried_writeDone hcarried hlen
  | delay =>
    simp only [Flow.moved, Bridge.handlerStep, Bridge.joined, hrun]
    rw [hrun] at hcarried
    exact ⟨rfl, hcarried⟩
  | finish =>
    simp only [Flow.moved, Bridge.handlerStep, Bridge.joined, hrun]
    rw [hrun] at hcarried
    split
    · exact ⟨rfl, hcarried⟩
    · refine ⟨rfl, ?_⟩
      simp only [exec_toUsb]
      exact hcarried

theorem init_loops {t : Flow ι} (ht : loopback.init t) : Loops t := by
  obtain ⟨handler, onEvent, m, size, fifo, ctsrts, status, connected, callback, rfl, -, hbridge,
    hsent, hgot⟩ := ht
  refine ⟨?_, ?_⟩
  · rw [hbridge]
    rfl
  · rw [hbridge, hsent, hgot]
    exact carried_init m size (some handler) (some handler)

end FlowLemmas

/-- Every step of the loopback moves the bytes along. -/
theorem loopStep_loops {t u : Flow ι} {a : Act ι} (h : Loops t) (hstep : t.loopStep a = some u) :
    Loops u := by
  cases a with
  | write data => cases hstep
  | read n => cases hstep
  | run v =>
    obtain ⟨s, hs, rfl⟩ := Option.map_eq_some_iff.mp hstep
    have hrun : s.toUsb = t.bridge.toUsb ∧ s.fromUsb = t.bridge.fromUsb ∧
        s.run.sending t.trData = t.bridge.run.sending t.trData ∧
        s.run.receiving = t.bridge.run.receiving := by
      simp only [step] at hs
      split at hs
      · split at hs
        · split at hs
          · next hidle =>
            cases hs
            rw [hidle]
            exact ⟨rfl, rfl, rfl, rfl⟩
          · cases hs
        · cases hs
          exact ⟨rfl, rfl, rfl, rfl⟩
      · cases hs
    obtain ⟨hto, hfrom, hsending, hreceiving⟩ := hrun
    split
    · exact h.congr hto hfrom hsending hreceiving
    · exact h.congr hto hfrom hsending hreceiving
  | handler usb =>
    obtain ⟨s, hs, rfl⟩ := Option.map_eq_some_iff.mp hstep
    simp only [step, Option.ite_none_left_eq_some, Option.some.injEq] at hs
    obtain ⟨-, rfl⟩ := hs
    exact handler_loops h usb
  | host connected =>
    obtain ⟨s, hs, rfl⟩ := Option.map_eq_some_iff.mp hstep
    simp only [step, Option.ite_none_left_eq_some, Option.some.injEq] at hs
    obtain ⟨-, rfl⟩ := hs
    exact h.joined rfl rfl rfl
  | lineState rts =>
    obtain ⟨s, hs, rfl⟩ := Option.map_eq_some_iff.mp hstep
    simp only [step, Option.ite_none_right_eq_some, Option.some.injEq] at hs
    obtain ⟨-, rfl⟩ := hs
    rw [lineState_eq]
    exact h.joined (exec_toUsb _ _) (exec_fromUsb _ _) (exec_running _ _)
  | lineCoding lc =>
    simp only [Flow.loopStep] at hstep
    obtain ⟨s, hs, rfl⟩ := Option.map_eq_some_iff.mp hstep
    cases hs
    exact h.joined (exec_toUsb _ _) (exec_fromUsb _ _) (exec_running _ _)
  | txComplete =>
    simp only [Flow.loopStep] at hstep
    obtain ⟨s, hs, rfl⟩ := Option.map_eq_some_iff.mp hstep
    cases hs
    exact h.joined rfl rfl rfl
  | rx =>
    simp only [Flow.loopStep] at hstep
    obtain ⟨s, hs, rfl⟩ := Option.map_eq_some_iff.mp hstep
    cases hs
    exact h.joined rfl rfl rfl
  | expire v =>
    simp only [Flow.loopStep] at hstep
    obtain ⟨s, hs, rfl⟩ := Option.map_eq_some_iff.mp hstep
    cases hs
    exact h.joined rfl rfl rfl

/-- In every run, what the host has got is what it has sent, in order, with nothing twice and
nothing left out. Outside of the handler, an empty FIFO means that all of it is back. The FIFO has
the bridge at both ends, so one task is its consumer and its producer. -/
theorem loopback_echo {t : Flow ι} (h : loopback.Reachable t) :
    t.sent <+: t.got ∧ (t.bridge.run = .idle → t.bridge.toUsb.used = 0 → t.sent = t.got) := by
  have hloops : Loops t :=
    h.invariant (I := Loops) (fun _ ht => init_loops ht) fun _ _ _ ht hs => loopStep_loops ht hs
  obtain ⟨hsent, hall⟩ := Carried.inOrder hloops.carried
  refine ⟨hsent, fun hidle hused => ?_⟩
  obtain ⟨hsending, hreceiving⟩ := not_held hidle
  exact hall hused hreceiving hsending

namespace FlowLemmas

/-- A FIFO of four bytes, whose consumer and producer is the handler. -/
def loopFifo : PrFifo Bool :=
  prFifoProducerSet (prFifoConsumerSet (prFifoInit (fun _ => 0) 4) (some true)) (some true)

def freshLoop : Flow Bool :=
  { freshFlow with
    bridge := prCdcInterfaceInit true loopFifo loopFifo (some false) false (fun _ => .idle) true
      false }

def echoesOne : List (Act Bool) :=
  .run true :: List.replicate 9 (.handler ⟨2, 1, fun _ => 7⟩) ++
    .run true :: List.replicate 8 (.handler ⟨1, 0, fun _ => 0⟩)

end FlowLemmas

theorem loopback_echo_byte : ∃ t : Flow Bool, loopback.Reachable t ∧ t.bridge.run = .idle ∧
    t.got = [7] ∧ t.sent = [7] ∧ t.sent <+: t.got := by
  have hinit : loopback.Reachable freshLoop :=
    .init ⟨true, false, _, 4, loopFifo, false, _, true, false, rfl, by decide, rfl, rfl, rfl⟩
  have hrun : (exec Flow.loopStep freshLoop echoesOne).map
      (fun t => (t.bridge.run, t.got, t.sent)) = some (.idle, [7], [7]) := by decide
  obtain ⟨t, ht, hfields⟩ := Option.map_eq_some_iff.mp hrun
  simp only [Prod.mk.injEq] at hfields
  obtain ⟨hidle, hgot, hsent⟩ := hfields
  have hreach := Lts.reachable_exec hinit ht
  exact ⟨t, hreach, hidle, hgot, hsent, (loopback_echo hreach).1⟩

end Picore.Cdc
