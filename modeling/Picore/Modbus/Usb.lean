import Picore.Modbus.Bus
import Picore.Cdc.Copies

/-!
# A unit behind a USB bridge (`test/modbus_responder/main.c`)

The demo attaches a unit to the two FIFOs of a CDC interface. Here the functions of `modbus.c` that
touch the FIFOs and the tasks work on those of the bridge. All tasks are in one queue: none of them
runs while another one does, but host events, callbacks and alarms may come at any time.

Results:
1. `UsbModbus`, `usbModbus`: the unit and the bridge.
2. `step_moves`: what a step of the bridge does to the unit.
-/

namespace Picore.Modbus

open Memory Fuel Transition
open Picore.Fifo
open Picore.Task (Status)
open Picore.Cdc (Flow Bridge exec_other)
open Picore.Cdc.FlowLemmas Picore.Cdc.CopiesLemmas

variable {ι σ : Type}

/-! ## 1. The unit and the bridge -/

/-- The bridge with its FIFOs and the statuses of all tasks, the unit, its tasks, and all responses
that `bus_req_handle` has made. -/
structure UsbModbus (ι σ : Type) where
  flow : Flow ι
  bus : PrModbus σ
  worker : ι
  clear : ι
  responses : List (List UInt8)

section
variable [DecidableEq ι]

/-- `pr_modbus_init`, on the FIFOs of a bridge. -/
def prModbusInit (flow : Flow ι) (bus : PrModbus σ) (addr : UInt8) (worker clear : ι) :
    UsbModbus ι σ where
  flow :=
    { flow with
      bridge :=
        { flow.bridge with
          toUsb := prFifoProducerSet flow.bridge.toUsb (some worker)
          fromUsb := prFifoConsumerSet flow.bridge.fromUsb (some worker)
          status :=
            Function.update (Function.update flow.bridge.status worker .idle) clear .idle } }
  bus := { bus with addr := addr, ptr := 0, rspSize := 0 }
  worker := worker
  clear := clear
  responses := []

namespace UsbModbus

def mark (u : UsbModbus ι σ) (t : ι) (st : Status) : UsbModbus ι σ :=
  { u with
    flow :=
      { u.flow with
        bridge :=
          { u.flow.bridge with status := Function.update u.flow.bridge.status t st } } }

/-- `pr_task_exec`. -/
def exec (u : UsbModbus ι σ) (t : ι) : UsbModbus ι σ := u.mark t (u.flow.bridge.status t).exec

/-- `pr_task_exec(&bus->worker)` if the rx FIFO is not empty. -/
def execWorker (u : UsbModbus ι σ) : UsbModbus ι σ :=
  if prFifoIsEmpty u.flow.bridge.fromUsb then u else u.exec u.worker

/-- `pr_task_exec_in_ms(&bus->clear, TIMEOUT_MS)`. -/
def execClear (u : UsbModbus ι σ) : UsbModbus ι σ :=
  u.mark u.clear (u.flow.bridge.status u.clear).execIn

omit [DecidableEq ι] in
/-- `ptr` and `rsp_size` are set to zero. -/
def reset (u : UsbModbus ι σ) : UsbModbus ι σ :=
  { u with bus := { u.bus with ptr := 0, rspSize := 0 } }

/-- `pr_fifo_write` to `to_usb` of the bytes from `ptr` to `rsp_size`, which is never below it. -/
def send (fuel : Nat) (u : UsbModbus ι σ) : Option (UsbModbus ι σ) :=
  let data := fun i => u.bus.buffer (u.bus.ptr + i)
  (prFifoWrite u.flow.bridge.toUsb data (u.bus.rspSize - u.bus.ptr) fuel).toOption.map fun w =>
    w.execs.foldl exec
      { u with
        flow :=
          { u.flow with
            bridge := { u.flow.bridge with toUsb := w.fifo }
            written := u.flow.written ++ load data 0 w.done }
        bus := { u.bus with ptr := u.bus.ptr + w.done } }

/-- `pr_fifo_read` from `from_usb` to the rest of the buffer, with what is in its variable
`transferred`. -/
def receive (transferred fuel : Nat) (u : UsbModbus ι σ) : Option (UsbModbus ι σ) :=
  let data := fun i => u.bus.buffer (u.bus.ptr + i)
  (prFifoRead transferred u.flow.bridge.fromUsb data (bufferSize - u.bus.ptr) fuel).toOption.map
    fun r =>
      r.execs.foldl exec
        { u with
          flow :=
            { u.flow with
              bridge := { u.flow.bridge with fromUsb := r.fifo }
              read := u.flow.read ++ load r.data 0 r.done }
          bus :=
            { u.bus with
              buffer := store u.bus.buffer u.bus.ptr (load r.data 0 r.done)
              ptr := u.bus.ptr + r.done } }

def modbusTxTry (fuel : Nat) (u : UsbModbus ι σ) : Option (UsbModbus ι σ) :=
  (u.send fuel).map fun u => if u.bus.ptr = u.bus.rspSize then u.reset.execWorker else u

def busReqHandle (h : Handler σ) (size fuel : Nat) (u : UsbModbus ι σ) :
    Option (UsbModbus ι σ) := do
  let (called, bus) ← (busReqRespond h size fuel u.bus).toOption
  let u := { u with bus := bus }
  if called then
    modbusTxTry fuel { u with responses := u.responses ++ [load bus.buffer 0 bus.rspSize] }
  else some u

def modbusReqTry (h : Handler σ) (fuel : Nat) (u : UsbModbus ι σ) :
    Option (Bool × UsbModbus ι σ) :=
  let frameLen := modbusReqFrameLen u.bus.buffer u.bus.ptr
  if frameLen = 0 then some (false, u)
  else if frameLen > bufferSize then some (true, { u with bus := { u.bus with ptr := 0 } })
  else if frameLen > u.bus.ptr then some (false, u)
  else if ¬ crcValid (load u.bus.buffer 0 frameLen) then some (false, u)
  else (u.busReqHandle h frameLen fuel).map fun u => (true, u)

omit [DecidableEq ι] in
def modbusRspTry (past : UInt8) (u : UsbModbus ι σ) : Bool × UsbModbus ι σ :=
  let frameLen := modbusRspFrameLen past u.bus.buffer u.bus.ptr
  if frameLen = 0 then (false, u)
  else if frameLen > bufferSize then (true, { u with bus := { u.bus with ptr := 0 } })
  else if frameLen > u.bus.ptr then (false, u)
  else if ¬ crcValid (load u.bus.buffer 0 frameLen) then (false, u)
  else (true, u.reset)

def modbusRxTry (h : Handler σ) (transferred fuel : Nat) (past : UInt8) (u : UsbModbus ι σ) :
    Option (UsbModbus ι σ) := do
  let u ← u.receive transferred fuel
  let (useful, u) ← u.modbusReqTry h fuel
  if useful then some u
  else
    let (useful, u) := u.modbusRspTry past
    if useful then some u
    else if u.bus.ptr ≠ 0 then some u.execClear
    else some u

def onWork (h : Handler σ) (transferred fuel : Nat) (past : UInt8) (u : UsbModbus ι σ) :
    Option (UsbModbus ι σ) :=
  if u.bus.rspSize ≠ 0 then u.modbusTxTry fuel else u.modbusRxTry h transferred fuel past

def onClear (u : UsbModbus ι σ) : UsbModbus ι σ := u.reset.execWorker

omit [DecidableEq ι] in
/-- The steps of the bridge that neither the unit nor `on_modbus_event` makes. -/
def Outside (u : UsbModbus ι σ) : Cdc.Act ι → Prop
  | .write _ | .read _ => False
  | .run t => t ≠ u.worker ∧ t ≠ u.clear ∧ u.flow.bridge.onEvent ≠ some t
  | _ => True

instance (u : UsbModbus ι σ) : DecidablePred u.Outside
  | .write _ | .read _ => inferInstanceAs (Decidable False)
  | .run t =>
    inferInstanceAs (Decidable (t ≠ u.worker ∧ t ≠ u.clear ∧ u.flow.bridge.onEvent ≠ some t))
  | .host _ | .lineState _ | .lineCoding _ | .txComplete | .rx | .expire _ | .handler _ =>
    inferInstanceAs (Decidable True)

def Runs (u : UsbModbus ι σ) (t : ι) : Prop :=
  u.flow.bridge.status t = .pending ∧ u.flow.bridge.run = .idle

omit [DecidableEq ι] in
instance (u : UsbModbus ι σ) (t : ι) : Decidable (u.Runs t) :=
  inferInstanceAs (Decidable (_ ∧ _))

end UsbModbus

/-- The labels of the steps: those of the bridge, and the three handlers of the unit that the
scheduler runs. -/
inductive UsbAct (ι : Type)
  | bridge (a : Cdc.Act ι)
  /-- The worker runs. `transferred` is what the variable of `pr_fifo_read` holds. -/
  | work (transferred fuel : Nat) (past : UInt8)
  /-- `clear` runs. -/
  | clear
  /-- `on_modbus_event` runs. -/
  | event

def UsbModbus.step (h : Handler σ) (u : UsbModbus ι σ) : UsbAct ι → Option (UsbModbus ι σ)
  | .bridge a => if u.Outside a then (u.flow.step a).map fun t => { u with flow := t } else none
  | .work transferred fuel past =>
    if u.Runs u.worker then (u.mark u.worker .idle).onWork h transferred fuel past else none
  | .clear => if u.Runs u.clear then some (u.mark u.clear .idle).onClear else none
  | .event =>
    match u.flow.bridge.onEvent with
    | none => none
    | some e =>
      if u.Runs e then
        let u := u.mark e .idle
        some { u with flow := { u.flow with bridge := { u.flow.bridge with events := 0 } } }
      else none

/-- The task of the bridge, that which hears of its events, and the two of the unit are different
ones, except that the bridge need not have a task for events. -/
structure Distinct (handler : ι) (onEvent : Option ι) (worker clear : ι) : Prop where
  clear_ne : clear ≠ worker
  handler_ne : handler ≠ worker
  handler_ne_clear : handler ≠ clear
  event_ne : onEvent ≠ some worker
  event_ne_clear : onEvent ≠ some clear

/-- After `pr_cdc_interface_init` and `pr_modbus_init`, on new FIFOs. -/
def UsbModbus.Init (u : UsbModbus ι σ) : Prop :=
  ∃ flow bus addr worker clear, Cdc.flow.init flow ∧
    Distinct flow.bridge.handler flow.bridge.onEvent worker clear ∧
    u = prModbusInit flow bus addr worker clear

/-- The unit and the bridge from `u0` on, under every order of steps. -/
def usbModbus (h : Handler σ) (u0 : UsbModbus ι σ) : Lts (UsbModbus ι σ) (UsbAct ι) :=
  Lts.ofFun (fun u => u = u0) (UsbModbus.step h)

/-! ## 2. Steps of the bridge -/

/-- What a step of the bridge does to the unit: `len` bytes of `to_usb` are released, `bytes` come
into `from_usb`, and the tasks of the FIFOs are woken if there are any. -/
structure Moves (t t' : Flow ι) (len : Nat) (bytes : List UInt8) : Prop where
  written : t'.written = t.written
  read : t'.read = t.read
  got : t'.got = t.got ++ bytes
  free : t'.bridge.toUsb.free = t.bridge.toUsb.free + len
  used : t'.bridge.toUsb.used + (t'.bridge.run.sending t'.trData).count + len =
    t.bridge.toUsb.used + (t.bridge.run.sending t.trData).count
  handler : t'.bridge.handler = t.bridge.handler
  on_event : t'.bridge.onEvent = t.bridge.onEvent
  to_usb : t'.bridge.toUsb.producer = t.bridge.toUsb.producer ∧
    t'.bridge.toUsb.consumer = t.bridge.toUsb.consumer
  from_usb : t'.bridge.fromUsb.producer = t.bridge.fromUsb.producer ∧
    t'.bridge.fromUsb.consumer = t.bridge.fromUsb.consumer
  status : ∀ v, v ≠ t.bridge.handler → t.bridge.onEvent ≠ some v → t'.bridge.status v =
    if len ≠ 0 ∧ t.bridge.toUsb.producer = some v ∨
      bytes ≠ [] ∧ t.bridge.fromUsb.consumer = some v then .pending else t.bridge.status v

namespace UsbLemmas

/-- A step that changes only the rest of the bridge. -/
theorem moves_none {t : Flow ι} {s : Bridge ι} (hto : s.toUsb = t.bridge.toUsb)
    (hfrom : s.fromUsb = t.bridge.fromUsb)
    (hsending : (s.run.sending t.trData).count = (t.bridge.run.sending t.trData).count)
    (hhandler : s.handler = t.bridge.handler) (hevent : s.onEvent = t.bridge.onEvent)
    (hstatus : ∀ v, v ≠ t.bridge.handler → t.bridge.onEvent ≠ some v →
      s.status v = t.bridge.status v) : Moves t { t with bridge := s } 0 [] where
  written := rfl
  read := rfl
  got := (List.append_nil _).symm
  free := congrArg PrFifo.free hto
  used := by rw [hto, hsending, Nat.add_zero]
  handler := hhandler
  on_event := hevent
  to_usb := by rw [hto]; exact ⟨rfl, rfl⟩
  from_usb := by rw [hfrom]; exact ⟨rfl, rfl⟩
  status v hv hv' := by simp [hstatus v hv hv']

@[simp] theorem exec_handler (s : Bridge ι) (task : Option ι) :
    (s.exec task).handler = s.handler := by
  cases task <;> rfl

@[simp] theorem exec_onEvent (s : Bridge ι) (task : Option ι) :
    (s.exec task).onEvent = s.onEvent := by
  cases task <;> rfl

theorem exec_status (s : Bridge ι) (task : Option ι) (v : ι) :
    (s.exec task).status v = if task = some v then .pending else s.status v := by
  split
  · next htask =>
    subst htask
    exact Function.update_self _ _ _
  · next htask => exact exec_other s htask

theorem handler_moves (t : Flow ι) (usb : Cdc.Usb) : ∃ len bytes,
    Moves t { t.moved (.handler usb) with bridge := t.bridge.handlerStep usb } len bytes := by
  obtain ⟨s, trData, written, sent, got, read⟩ := t
  cases hrun : s.run with
  | idle =>
    refine ⟨0, [], ?_⟩
    simp only [Flow.moved, Bridge.handlerStep, hrun]
    exact moves_none rfl rfl rfl rfl rfl fun _ _ _ => rfl
  | start =>
    refine ⟨0, [], ?_⟩
    simp only [Flow.moved, Bridge.handlerStep, hrun]
    refine moves_none ?_ ?_ ?_ ?_ ?_ fun v _ _ => ?_
    all_goals
      simp only [hrun]
      split
      · split
        · rfl
        · rfl
      · split
        · rfl
        · rfl
  | send =>
    refine ⟨0, [], ?_⟩
    simp only [Flow.moved, Bridge.handlerStep, hrun]
    split
    · refine moves_none (exec_toUsb _ _) (exec_fromUsb _ _) ?_ (exec_handler _ _)
        (exec_onEvent _ _) fun v hv _ => exec_other s fun heq => hv (Option.some.inj heq).symm
      rw [hrun]
      rfl
    · refine moves_none rfl rfl ?_ rfl rfl fun _ _ _ => rfl
      rw [hrun]
      rfl
  | sendPrepare usbFree =>
    obtain ⟨size, rptr, hle, hprepare⟩ := readPrepare_takes s.toUsb usbFree
    refine ⟨0, [], ?_⟩
    simp only [Flow.moved, Bridge.handlerStep, hrun, hprepare]
    refine ⟨rfl, rfl, (List.append_nil _).symm, rfl, ?_, rfl, rfl, ⟨rfl, rfl⟩, ⟨rfl, rfl⟩,
      fun v _ _ => by simp⟩
    simp only [hrun]
    split
    · next hsize =>
      subst hsize
      rfl
    · exact Nat.sub_add_cancel hle
  | sendWrite trSize =>
    refine ⟨trSize, [], ?_⟩
    simp only [Flow.moved, Bridge.handlerStep, hrun, readDone_eq]
    refine ⟨rfl, rfl, (List.append_nil _).symm, ?_, ?_, exec_handler _ _, exec_onEvent _ _, ?_, ?_,
      fun v _ _ => ?_⟩
    · simp only [exec_toUsb]
    · simp only [exec_toUsb, hrun]
      rfl
    · simp only [exec_toUsb, and_self]
    · simp only [exec_fromUsb, and_self]
    · simp only [exec_status]
      split
      · next hsize => simp [hsize]
      · next hsize => simp [hsize]
  | sendCheck trSize =>
    refine ⟨0, [], ?_⟩
    simp only [Flow.moved, Bridge.handlerStep, hrun]
    by_cases hused : s.toUsb.used = 0
    · simp only [if_pos hused]
      refine moves_none rfl rfl ?_ rfl rfl fun _ _ _ => rfl
      rw [hrun]
      rfl
    · simp only [if_neg hused]
      refine moves_none rfl rfl ?_ rfl rfl fun v hv _ => Function.update_of_ne hv _ _
      rw [hrun]
      rfl
  | recv =>
    refine ⟨0, [], ?_⟩
    simp only [Flow.moved, Bridge.handlerStep, hrun]
    split
    · refine moves_none rfl rfl ?_ rfl rfl fun _ _ _ => rfl
      rw [hrun]
      rfl
    · refine moves_none rfl rfl ?_ rfl rfl fun _ _ _ => rfl
      rw [hrun]
      rfl
  | recvPrepare usbAvailable =>
    obtain ⟨size, free, wptr, hprepare⟩ := writePrepare_takes s.fromUsb usbAvailable
    refine ⟨0, [], ?_⟩
    simp only [Flow.moved, Bridge.handlerStep, hrun, hprepare]
    refine ⟨rfl, rfl, (List.append_nil _).symm, rfl, ?_, rfl, rfl, ⟨rfl, rfl⟩, ⟨rfl, rfl⟩,
      fun v _ _ => by simp⟩
    simp only [hrun]
    rfl
  | recvRead trData' trSize =>
    refine ⟨0, (List.range trSize).map usb.rx, ?_⟩
    simp only [Flow.moved, Bridge.handlerStep, hrun, writeDone_eq]
    refine ⟨rfl, rfl, rfl, ?_, ?_, exec_handler _ _, exec_onEvent _ _, ?_, ?_, fun v _ _ => ?_⟩
    · simp only [exec_toUsb, Nat.add_zero]
    · simp only [exec_toUsb, hrun]
      rfl
    · simp only [exec_toUsb, and_self]
    · simp only [exec_fromUsb, and_self]
    · simp only [exec_status]
      split
      · next hsize => simp [hsize]
      · next hsize =>
        rw [not_not] at hsize
        simp [hsize]
  | delay =>
    refine ⟨0, [], ?_⟩
    simp only [Flow.moved, Bridge.handlerStep, hrun]
    refine moves_none rfl rfl ?_ rfl rfl fun v hv _ => Function.update_of_ne hv _ _
    rw [hrun]
    rfl
  | finish =>
    refine ⟨0, [], ?_⟩
    simp only [Flow.moved, Bridge.handlerStep, hrun]
    have hsending : (Cdc.Run.idle.sending trData).count = (s.run.sending trData).count := by
      rw [hrun]
      rfl
    split
    · exact moves_none rfl rfl hsending rfl rfl fun _ _ _ => rfl
    · exact moves_none (exec_toUsb _ _) (exec_fromUsb _ _) hsending (exec_handler _ _)
        (exec_onEvent _ _) fun v _ hv => exec_other s hv

end UsbLemmas

open UsbLemmas

/-- What a step of the bridge other than an alarm or a task does to the unit. -/
theorem step_moves {t t' : Flow ι} {a : Cdc.Act ι} (hstep : t.step a = some t')
    (happ : (∀ data, a ≠ .write data) ∧ ∀ n, a ≠ .read n)
    (htask : (∀ v, a ≠ .expire v) ∧ ∀ v, a ≠ .run v) : ∃ len bytes, Moves t t' len bytes := by
  obtain ⟨s, hs, rfl⟩ := Option.map_eq_some_iff.mp hstep
  cases a with
  | host connected =>
    simp only [Cdc.step, Option.ite_none_left_eq_some, Option.some.injEq] at hs
    obtain ⟨-, rfl⟩ := hs
    exact ⟨0, [], moves_none rfl rfl rfl rfl rfl fun _ _ _ => rfl⟩
  | lineState rts =>
    simp only [Cdc.step, Option.ite_none_right_eq_some, Option.some.injEq] at hs
    obtain ⟨-, rfl⟩ := hs
    rw [Cdc.lineState_eq]
    refine ⟨0, [], moves_none (exec_toUsb _ _) (exec_fromUsb _ _) ?_ (exec_handler _ _)
      (exec_onEvent _ _) fun v _ hv => exec_other _ hv⟩
    rw [exec_running]
  | lineCoding lc =>
    cases hs
    refine ⟨0, [], moves_none (exec_toUsb _ _) (exec_fromUsb _ _) ?_ (exec_handler _ _)
      (exec_onEvent _ _) fun v _ hv => exec_other _ hv⟩
    rw [Cdc.tudCdcLineCodingCb, exec_running]
  | txComplete =>
    cases hs
    exact ⟨0, [], moves_none rfl rfl rfl rfl rfl fun v hv _ => Function.update_of_ne hv _ _⟩
  | rx =>
    cases hs
    exact ⟨0, [], moves_none rfl rfl rfl rfl rfl fun v hv _ => Function.update_of_ne hv _ _⟩
  | expire v => exact absurd rfl (htask.1 v)
  | run v => exact absurd rfl (htask.2 v)
  | handler usb =>
    simp only [Cdc.step, Option.ite_none_left_eq_some, Option.some.injEq] at hs
    obtain ⟨-, rfl⟩ := hs
    exact handler_moves t usb
  | write data => exact absurd rfl (happ.1 data)
  | read n => exact absurd rfl (happ.2 n)

end

end Picore.Modbus
