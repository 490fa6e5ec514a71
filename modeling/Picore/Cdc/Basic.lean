import Picore.Fifo.Basic
import Picore.Lib.Transition
import Picore.Task.Status

/-!
# The USB CDC bridge (`src/cdc_interface/cdc_interface.c`)

One `struct pr_cdc_interface` with its two FIFOs, the tasks, and TinyUSB around it. The
handler is cut between any two accesses to what it shares with the others, so that a host
event, a callback, an alarm or the application can come in between.

TinyUSB answers how much it can take and how much it has got, and then moves exactly what it
is told to, as the source asserts. Both FIFOs are given. All tasks have a function.
-/

namespace Picore.Cdc

open Memory Transition
open Picore.Fifo
open Picore.Task (Status)

variable {ι : Type}

/-- `PR_CDC_INTERFACE_EVENT_RX`. -/
def eventRx : UInt8 := 1

/-- `PR_CDC_INTERFACE_EVENT_TX`. -/
def eventTx : UInt8 := 2

/-- `PR_CDC_INTERFACE_EVENT_OPEN`. -/
def eventOpen : UInt8 := 4

/-- `PR_CDC_INTERFACE_EVENT_LC`. -/
def eventLc : UInt8 := 8

/-- `PR_CDC_INTERFACE_EVENT_CTSRTS`. -/
def eventCtsrts : UInt8 := 16

/-- `cdc_line_coding_t`, as the host sets it: the bit rate, and the codes that USB has for stop
bits, parity and word length. -/
structure LineCoding where
  bitRate : UInt32
  stopBits : UInt8
  parity : UInt8
  dataBits : UInt8

/-- Where `cdc_interface_handler` stands. It is cut before each call of TinyUSB or of a FIFO, so
that callbacks of the host and other users of the FIFOs can come in between. -/
inductive Run
  | idle
  | start
  /-- In `to_usb_try_send`. -/
  | send
  | sendPrepare (usbFree : Nat)
  | sendWrite (trSize : Nat)
  | sendCheck (trSize : Nat)
  /-- In `from_usb_try_recv`. -/
  | recv
  | recvPrepare (usbAvailable : Nat)
  | recvRead (trData trSize : Nat)
  | delay
  | finish
  deriving DecidableEq

/-- `struct pr_cdc_interface`, the status of each task, and TinyUSB: whether the host is
connected, and whether `tud_cdc_line_state_cb` is still to be called. -/
structure Bridge (ι : Type) where
  lc : LineCoding
  ctsrts : Bool
  opened : Bool
  events : UInt8
  toUsb : PrFifo ι
  fromUsb : PrFifo ι
  onEvent : Option ι
  handler : ι
  status : ι → Status
  connected : Bool
  callback : Bool
  run : Run

/-- What TinyUSB answers to the handler in one step: how many bytes it takes, how many it has, and
which ones they are. -/
structure Usb where
  writeAvailable : Nat
  available : Nat
  rx : Nat → UInt8

variable [DecidableEq ι]

/-- `pr_task_exec`. -/
def Bridge.exec (s : Bridge ι) : Option ι → Bridge ι
  | none => s
  | some t => { s with status := Function.update s.status t (s.status t).exec }

/-- `pr_cdc_interface_init`. The FIFOs, the statuses of the other tasks and the host are
what they are. -/
def prCdcInterfaceInit (handler : ι) (toUsb fromUsb : PrFifo ι) (onEvent : Option ι)
    (ctsrts : Bool) (status : ι → Status) (connected callback : Bool) : Bridge ι :=
  let s : Bridge ι :=
    { lc := ⟨115200, 1, 0, 8⟩
      ctsrts := ctsrts
      opened := false
      events := 0
      toUsb := prFifoConsumerSet toUsb (some handler)
      fromUsb := prFifoProducerSet fromUsb (some handler)
      onEvent := onEvent
      handler := handler
      status := Function.update status handler .idle
      connected := connected
      callback := callback
      run := .idle }
  s.exec (some handler)

/-- The next step of `handler`, up to its next call of TinyUSB or of a FIFO. What TinyUSB answers to
it comes with the step. -/
def Bridge.handlerStep (s : Bridge ι) (usb : Usb) : Bridge ι :=
  match s.run with
  | .idle => s
  | .start =>
    if s.connected then
      if s.opened then { s with run := .send }
      else { s with opened := true, events := s.events ||| eventOpen, run := .send }
    else
      if s.opened then { s with opened := false, events := s.events ||| eventOpen, run := .finish }
      else { s with run := .finish }
  | .send =>
    if usb.writeAvailable = 0 then { s.exec (some s.handler) with run := .recv }
    else { s with run := .sendPrepare usb.writeAvailable }
  | .sendPrepare usbFree =>
    let (trSize, _, toUsb) := prFifoReadPrepare s.toUsb usbFree
    { s with toUsb := toUsb, run := if trSize = 0 then .sendCheck 0 else .sendWrite trSize }
  | .sendWrite trSize =>
    let (toUsb, onCopy) := prFifoReadDone s.toUsb trSize
    { ({ s with toUsb := toUsb } : Bridge ι).exec onCopy with run := .sendCheck trSize }
  | .sendCheck trSize =>
    let s := if s.toUsb.used = 0 then s else s.exec (some s.handler)
    { s with events := if trSize = 0 then s.events else s.events ||| eventTx, run := .recv }
  | .recv =>
    if usb.available = 0 then { s with run := .delay }
    else { s with run := .recvPrepare usb.available }
  | .recvPrepare usbAvailable =>
    let (trSize, trData, fromUsb) := prFifoWritePrepare s.fromUsb usbAvailable
    { s with fromUsb := fromUsb, run := .recvRead trData trSize }
  | .recvRead trData trSize =>
    let buffer := store s.fromUsb.buffer trData ((List.range trSize).map usb.rx)
    let (fromUsb, onCopy) := prFifoWriteDone { s.fromUsb with buffer := buffer } trSize
    { ({ s with fromUsb := fromUsb } : Bridge ι).exec onCopy with
      events := if trSize = 0 then s.events else s.events ||| eventRx
      run := .delay }
  | .delay =>
    { s with
      status := Function.update s.status s.handler (s.status s.handler).execIn, run := .finish }
  | .finish => { (if s.events = 0 then s else s.exec s.onEvent) with run := .idle }

def tudCdcTxCompleteCb (s : Bridge ι) : Bridge ι := s.exec (some s.handler)

def tudCdcRxCb (s : Bridge ι) : Bridge ι := s.exec (some s.handler)

def tudCdcLineCodingCb (s : Bridge ι) (lc : LineCoding) : Bridge ι :=
  ({ s with lc := lc, events := s.events ||| eventLc } : Bridge ι).exec s.onEvent

def tudCdcLineStateCb (s : Bridge ι) (rts : Bool) : Bridge ι :=
  ({ s with ctsrts := rts, events := s.events ||| eventCtsrts } : Bridge ι).exec s.onEvent

/-- The application puts `data` into `to_usb`: a round of `pr_fifo_write`. -/
def Bridge.writeRound (s : Bridge ι) (data : List UInt8) : Bridge ι :=
  let (size, dst, toUsb) := prFifoWritePrepare s.toUsb data.length
  let buffer := store toUsb.buffer dst (data.take size)
  let (toUsb, onCopy) := prFifoWriteDone { toUsb with buffer := buffer } size
  ({ s with toUsb := toUsb } : Bridge ι).exec onCopy

/-- The application takes up to `n` bytes from `from_usb`: a round of `pr_fifo_read`. -/
def Bridge.readRound (s : Bridge ι) (n : Nat) : Bridge ι :=
  let (size, _, fromUsb) := prFifoReadPrepare s.fromUsb n
  let (fromUsb, onCopy) := prFifoReadDone fromUsb size
  ({ s with fromUsb := fromUsb } : Bridge ι).exec onCopy

/-- The labels of the steps: what the host does, the two callbacks of TinyUSB behind a transfer, the
scheduler, and one step of the handler. -/
inductive Act (ι : Type)
  /-- The host connects or disconnects, or changes RTS only. -/
  | host (connected : Bool)
  | lineState (rts : Bool)
  | lineCoding (lc : LineCoding)
  | txComplete
  | rx
  /-- The alarm at the deadline of a task. -/
  | expire (t : ι)
  /-- The scheduler runs a task. -/
  | run (t : ι)
  | handler (usb : Usb)
  | write (data : List UInt8)
  | read (n : Nat)

/-- One step. TinyUSB calls `tud_cdc_line_state_cb` once after each host event. -/
def step (s : Bridge ι) : Act ι → Option (Bridge ι)
  | .host connected =>
    if s.callback then none else some { s with connected := connected, callback := true }
  | .lineState rts =>
    if s.callback then some { tudCdcLineStateCb s rts with callback := false } else none
  | .lineCoding lc => some (tudCdcLineCodingCb s lc)
  | .txComplete => some (tudCdcTxCompleteCb s)
  | .rx => some (tudCdcRxCb s)
  | .expire t => some { s with status := Function.update s.status t (s.status t).expire }
  | .run t =>
    if s.status t = .pending then
      let s' := { s with status := Function.update s.status t .idle }
      if t = s.handler then (if s.run = .idle then some { s' with run := .start } else none)
      else some s'
    else none
  | .handler usb => if s.run = .idle then none else some (s.handlerStep usb)
  | .write data => some (s.writeRound data)
  | .read n => some (s.readRound n)

/-- The bridge, from `pr_cdc_interface_init` on. -/
def bridge : Lts (Bridge ι) (Act ι) :=
  Lts.ofFun
    (fun s => ∃ handler toUsb fromUsb onEvent ctsrts status connected callback,
      s = prCdcInterfaceInit handler toUsb fromUsb onEvent ctsrts status connected callback)
    step

end Picore.Cdc
