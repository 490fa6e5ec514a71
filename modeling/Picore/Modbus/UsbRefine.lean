import Picore.Modbus.Responder
import Picore.Modbus.Silence
import Picore.Modbus.Usb

/-!
# A unit behind a USB bridge is one on a line

Results:
1. `Refines`: the unit on the line. `refines_moves`: what a step of the bridge does to it.
2. `onWork_refines`: what the worker does. A read of a FIFO that wraps returns less than there is.
3. `usb_refines`: in every run, the unit is one to which the bytes of the host have arrived.
   `usb_silent`: so the host hears nothing unless it has asked this unit.
-/

namespace Picore.Modbus

open Memory Fuel Transition
open Picore.Fifo
open Picore.Task (Status)
open Picore.Cdc (Flow Bridge)
open Picore.Cdc.FlowLemmas Picore.Cdc.CopiesLemmas
open UsbLemmas ResponderLemmas

variable {ι σ : Type}

section
variable [DecidableEq ι]

/-! ## 1. The unit on the line -/

def workerStatus (worker : Bool) : Status := if worker then .pending else .idle

def ClearTask.status : ClearTask → Status
  | .idle => .idle
  | .waiting => .waiting
  | .pending => .pending

/-- The tasks are different ones, and they are those of the FIFOs. -/
structure UsbModbus.Wired (u : UsbModbus ι σ) : Prop where
  distinct : Distinct u.flow.bridge.handler u.flow.bridge.onEvent u.worker u.clear
  to_usb : u.flow.bridge.toUsb.producer = some u.worker ∧
    u.flow.bridge.toUsb.consumer = some u.flow.bridge.handler
  from_usb : u.flow.bridge.fromUsb.producer = some u.flow.bridge.handler ∧
    u.flow.bridge.fromUsb.consumer = some u.worker

/-- `n` is the unit on a line: what the handler holds of `to_usb` is not sent yet, and what it holds
of `from_usb` has not arrived. -/
structure Refines (u : UsbModbus ι σ) (n : Node σ) : Prop where
  flows : Flows u.flow
  wired : u.Wired
  bus : n.bus = u.bus
  responses : n.responses = u.responses
  written : n.written = u.flow.written
  rx : u.flow.got = u.flow.read ++ n.rx
  free : n.free = u.flow.bridge.toUsb.free
  used : n.used = u.flow.bridge.toUsb.used + (u.flow.bridge.run.sending u.flow.trData).count
  worker : u.flow.bridge.status u.worker = workerStatus n.worker
  clear : u.flow.bridge.status u.clear = n.clear.status

/-- The unit and the bridge are related, no handler of the bridge is running, and `got` is all that
has come from the host. -/
structure Paused (got : List UInt8) (u : UsbModbus ι σ) (n : Node σ) : Prop
    extends Refines u n where
  idle : u.flow.bridge.run = .idle
  got : u.flow.got = got

namespace UsbLemmas

variable {u u' : UsbModbus ι σ} {n : Node σ} {got : List UInt8}

/-- A step of the bridge is bytes that arrive and bytes that are taken. -/
theorem refines_moves (hr : Refines u n) {t : Flow ι} {len : Nat} {bytes : List UInt8}
    (hm : Moves u.flow t len bytes) (hflows : Flows t) :
    len ≤ n.used ∧ Refines { u with flow := t } ((n.arrived bytes).drained len) := by
  have hused := hm.used
  have hdistinct := hr.wired.distinct
  have hstatus := hm.status u.worker hdistinct.handler_ne.symm hdistinct.event_ne
  rw [hr.wired.to_usb.1, hr.wired.from_usb.2] at hstatus
  have hclear := hm.status u.clear hdistinct.handler_ne_clear.symm hdistinct.event_ne_clear
  rw [hr.wired.to_usb.1, hr.wired.from_usb.2] at hclear
  have hne : ¬ some u.worker = some u.clear := fun heq =>
    hdistinct.clear_ne (Option.some.inj heq).symm
  simp only [hne, and_false, or_self, if_false, and_true] at hstatus hclear
  rw [← hr.used] at hused
  refine ⟨Nat.le.intro ((Nat.add_comm _ _).trans hused), hflows, ⟨?_, ?_, ?_⟩, hr.bus, hr.responses,
    ?_, ?_, ?_, ?_, ?_, ?_⟩
  · show Distinct t.bridge.handler t.bridge.onEvent u.worker u.clear
    rw [hm.handler, hm.on_event]
    exact hdistinct
  · show t.bridge.toUsb.producer = _ ∧ t.bridge.toUsb.consumer = some t.bridge.handler
    rw [hm.to_usb.1, hm.to_usb.2, hm.handler]
    exact hr.wired.to_usb
  · show t.bridge.fromUsb.producer = some t.bridge.handler ∧ t.bridge.fromUsb.consumer = _
    rw [hm.from_usb.1, hm.from_usb.2, hm.handler]
    exact hr.wired.from_usb
  · exact hr.written.trans hm.written.symm
  · show t.got = t.read ++ (n.rx ++ bytes)
    rw [hm.got, hm.read, hr.rx, List.append_assoc]
  · show n.free + len = t.bridge.toUsb.free
    rw [hm.free, hr.free]
  · show n.used - len = _
    rw [← hused, Nat.add_sub_cancel]
  · show t.bridge.status u.worker = workerStatus (n.worker || !bytes.isEmpty || len != 0)
    rw [hstatus, hr.worker]
    cases bytes with
    | nil =>
      by_cases hlen : len = 0
      · simp [hlen]
      · simp [hlen, workerStatus]
    | cons b bytes => simp [workerStatus]
  · exact hclear.trans hr.clear

theorem refines_mark (hr : Refines u n) {t : ι} {st : Status} {worker : Bool} {clear : ClearTask}
    (hworker : (if u.worker = t then st else workerStatus n.worker) = workerStatus worker)
    (hclear : (if u.clear = t then st else n.clear.status) = clear.status) :
    Refines (u.mark t st) { n with worker := worker, clear := clear } where
  flows := hr.flows.congr rfl rfl rfl rfl
  wired := ⟨hr.wired.distinct, hr.wired.to_usb, hr.wired.from_usb⟩
  bus := hr.bus
  responses := hr.responses
  written := hr.written
  rx := hr.rx
  free := hr.free
  used := hr.used
  worker := by
    rw [← hworker, ← hr.worker]
    exact Function.update_apply _ _ _ _
  clear := by
    rw [← hclear, ← hr.clear]
    exact Function.update_apply _ _ _ _

/-- The status of a task that is neither of the two of the unit has no counterpart in the unit. -/
theorem refines_mark_other (hr : Refines u n) {t : ι} (hworker : u.worker ≠ t)
    (hclear : u.clear ≠ t) (st : Status) : Refines (u.mark t st) n :=
  refines_mark hr (if_neg hworker) (if_neg hclear)

theorem refines_mark_worker (hr : Refines u n) (worker : Bool) :
    Refines (u.mark u.worker (workerStatus worker)) { n with worker := worker } :=
  refines_mark hr (if_pos rfl) (if_neg hr.wired.distinct.clear_ne)

theorem refines_mark_clear (hr : Refines u n) (clear : ClearTask) :
    Refines (u.mark u.clear clear.status) { n with clear := clear } :=
  refines_mark hr (if_neg hr.wired.distinct.clear_ne.symm) (if_pos rfl)

omit [DecidableEq ι] in
theorem refines_bus (hr : Refines u n) {bus bus' : PrModbus σ} (hbus : bus' = bus)
    {responses responses' : List (List UInt8)} (hresponses : responses' = responses) :
    Refines { u with bus := bus, responses := responses }
      { n with bus := bus', responses := responses' } :=
  ⟨hr.flows, ⟨hr.wired.distinct, hr.wired.to_usb, hr.wired.from_usb⟩, hbus, hresponses, hr.written,
    hr.rx, hr.free, hr.used, hr.worker, hr.clear⟩

omit [DecidableEq ι] in
theorem refines_reset (hr : Refines u n) : Refines u.reset n.reset :=
  refines_bus hr (by rw [hr.bus]) hr.responses

omit [DecidableEq ι] in
/-- Outside of the handler, nobody holds anything of the FIFOs. -/
theorem paused_carried (h : Paused got u n) :
    Cdc.Carried u.flow.bridge.toUsb .closed .closed u.flow.written u.flow.sent ∧
      Cdc.Carried u.flow.bridge.fromUsb .closed .closed u.flow.got u.flow.read := by
  have hto := h.flows.to_usb
  have hfrom := h.flows.from_usb
  rw [h.idle] at hto hfrom
  exact ⟨hto, hfrom⟩

omit [DecidableEq ι] in
theorem paused_used (h : Paused got u n) : n.used = u.flow.bridge.toUsb.used := by
  rw [h.used, h.idle]
  rfl

omit [DecidableEq ι] in
theorem paused_rx (h : Paused got u n) : n.rx = queued u.flow.bridge.fromUsb := by
  have hgot := (carried_quiet (paused_carried h).2).2
  rw [h.rx] at hgot
  exact List.append_cancel_left hgot

theorem paused_execs {ts : List ι} (hts : ∀ t ∈ ts, t = u.flow.bridge.handler)
    (h : Paused got u n) : Paused got (ts.foldl UsbModbus.exec u) n := by
  induction ts generalizing u with
  | nil => exact h
  | cons t ts ih =>
    obtain ⟨rfl, hrest⟩ := List.forall_mem_cons.mp hts
    refine ih hrest ⟨refines_mark_other h.toRefines ?_ ?_ _, h.idle, h.got⟩
    · exact h.wired.distinct.handler_ne.symm
    · exact h.wired.distinct.handler_ne_clear.symm

theorem paused_execWorker (h : Paused got u n) : Paused got u.execWorker n.execWorker := by
  have hempty : prFifoIsEmpty u.flow.bridge.fromUsb = n.rx.isEmpty := by
    rw [paused_rx h, Bool.eq_iff_iff, List.isEmpty_iff, ← List.length_eq_zero_iff, length_queued]
    exact beq_iff_eq
  unfold UsbModbus.execWorker Node.execWorker
  rw [hempty]
  cases n.rx.isEmpty with
  | true =>
    rw [Bool.not_true, Bool.or_false]
    exact h
  | false =>
    rw [Bool.not_false, Bool.or_true]
    exact ⟨refines_mark_worker h.toRefines true, h.idle, h.got⟩

theorem refines_execClear (hr : Refines u n) : Refines u.execClear n.execClear := by
  have hstatus : (u.flow.bridge.status u.clear).execIn =
      (if n.clear = .pending then ClearTask.pending else .waiting).status := by
    rw [hr.clear]
    cases n.clear <;> rfl
  rw [UsbModbus.execClear, hstatus]
  exact refines_mark_clear hr _

/-! ## 2. The tasks of the unit -/

theorem paused_send (h : Paused got u n) {fuel : Nat} (hu : u.send fuel = some u') :
    Paused got u' { n with
      bus := { n.bus with ptr := n.bus.ptr + min (n.bus.rspSize - n.bus.ptr) n.free }
      free := n.free - min (n.bus.rspSize - n.bus.ptr) n.free
      used := n.used + min (n.bus.rspSize - n.bus.ptr) n.free
      written := n.written ++
        load n.bus.buffer n.bus.ptr (min (n.bus.rspSize - n.bus.ptr) n.free) } := by
  obtain ⟨w, hw, rfl⟩ := Option.map_eq_some_iff.mp hu
  obtain ⟨hcarried, hdone, hfree, hused, hproducer, hconsumer, hexecs⟩ :=
    write_spec (paused_carried h).1 (toOption_eq_some.mp hw)
  rw [← h.bus, ← h.free] at hdone
  have hload : load (fun i => u.bus.buffer (u.bus.ptr + i)) 0 w.done =
      load n.bus.buffer n.bus.ptr w.done := by
    rw [h.bus]
    exact List.map_congr_left fun i _ => congrArg _ (congrArg _ (Nat.zero_add i))
  rw [← hdone]
  refine paused_execs (fun t ht => ?_)
    ⟨⟨⟨?_, ?_⟩, ⟨?_, ?_, ?_⟩, ?_, ?_, ?_, ?_, ?_, ?_, ?_, ?_⟩, h.idle, h.got⟩
  · have hhandler := hexecs t ht
    rw [h.wired.to_usb.2] at hhandler
    exact (Option.some.inj hhandler).symm
  · show Cdc.Carried w.fifo .closed (u.flow.bridge.run.sending u.flow.trData) _ _
    rw [h.idle]
    exact hcarried
  · exact h.flows.from_usb
  · exact h.wired.distinct
  · show w.fifo.producer = _ ∧ w.fifo.consumer = _
    rw [hproducer, hconsumer]
    exact h.wired.to_usb
  · exact h.wired.from_usb
  · show _ = _
    rw [h.bus]
  · exact h.responses
  · show _ = u.flow.written ++ _
    rw [hload, h.written]
  · exact h.rx
  · show _ = w.fifo.free
    rw [hfree, h.free]
  · show _ = w.fifo.used + (u.flow.bridge.run.sending u.flow.trData).count
    rw [hused, h.idle, paused_used h]
    rfl
  · exact h.worker
  · exact h.clear

theorem paused_txTry (h : Paused got u n) {fuel : Nat} (hu : u.modbusTxTry fuel = some u') :
    Paused got u' (modbusTxTry n) := by
  obtain ⟨u1, hsend, rfl⟩ := Option.map_eq_some_iff.mp hu
  have hp := paused_send h hsend
  unfold modbusTxTry
  rw [← hp.bus]
  simp only
  split
  · exact paused_execWorker ⟨refines_reset hp.toRefines, hp.idle, hp.got⟩
  · exact hp

/-- The unit on the line reads as far as the FIFO does not wrap. -/
theorem paused_receive (h : Paused got u n) {transferred fuel : Nat}
    (hu : u.receive transferred fuel = some u') : ∃ k, Paused got u' (n.received k) := by
  obtain ⟨r, hr, rfl⟩ := Option.map_eq_some_iff.mp hu
  obtain ⟨hdone, hload, hcarried, hproducer, hconsumer, hexecs⟩ :=
    read_spec (paused_carried h).2 (toOption_eq_some.mp hr)
  let k := u.flow.bridge.fromUsb.size - u.flow.bridge.fromUsb.rptr
  have hbytes : n.rx.take (min k (bufferSize - n.bus.ptr)) = load r.data 0 r.done := by
    rw [hload, hdone, paused_rx h, List.take_eq_take_min, length_queued, h.bus]
    exact congrArg (List.take · _) (by omega)
  have hlen : (load r.data 0 r.done).length = r.done := length_load ..
  have hrest : load r.data 0 r.done ++ n.rx.drop r.done = n.rx := by
    have hprefix : load r.data 0 r.done <+: n.rx := hbytes ▸ List.take_prefix _ _
    have happend := List.prefix_iff_eq_append.mp hprefix
    rw [hlen] at happend
    exact happend
  refine ⟨k, ?_⟩
  unfold Node.received
  rw [hbytes]
  simp only [hlen]
  refine paused_execs (fun t ht => ?_)
    ⟨⟨⟨?_, ?_⟩, ⟨?_, ?_, ?_⟩, ?_, ?_, ?_, ?_, ?_, ?_, ?_, ?_⟩, h.idle, h.got⟩
  · have hhandler := hexecs t ht
    rw [h.wired.from_usb.1] at hhandler
    exact (Option.some.inj hhandler).symm
  · exact h.flows.to_usb
  · show Cdc.Carried r.fifo u.flow.bridge.run.receiving .closed _ _
    rw [h.idle]
    exact hcarried
  · exact h.wired.distinct
  · exact h.wired.to_usb
  · show r.fifo.producer = _ ∧ r.fifo.consumer = _
    rw [hproducer, hconsumer]
    exact h.wired.from_usb
  · simp only [h.bus]
  · exact h.responses
  · exact h.written
  · show u.flow.got = u.flow.read ++ _ ++ _
    rw [h.rx, List.append_assoc, hrest]
  · exact h.free
  · exact h.used
  · exact h.worker
  · exact h.clear

theorem paused_reqHandle (h : Paused got u n) {hd : Handler σ} {size fuel : Nat}
    (hu : u.busReqHandle hd size fuel = some u') :
    ∃ n', busReqHandle hd size fuel n = .ok n' ∧ Paused got u' n' := by
  obtain ⟨⟨called, bus⟩, hresp, hu⟩ := Option.bind_eq_some_iff.mp hu
  have hok : busReqHandle hd size fuel n = .ok (n.handled (called, bus)) := by
    rw [busReqHandle_eq, h.bus, toOption_eq_some.mp hresp]
    rfl
  refine ⟨_, hok, ?_⟩
  cases called with
  | true =>
    refine paused_txTry ⟨refines_bus h.toRefines rfl ?_, h.idle, h.got⟩ hu
    rw [h.responses]
  | false =>
    cases hu
    exact ⟨refines_bus h.toRefines rfl h.responses, h.idle, h.got⟩

theorem paused_reqTry (h : Paused got u n) {hd : Handler σ} {fuel : Nat} {useful : Bool}
    (hu : u.modbusReqTry hd fuel = some (useful, u')) :
    ∃ n', modbusReqTry hd fuel n = .ok (useful, n') ∧ Paused got u' n' := by
  unfold UsbModbus.modbusReqTry at hu
  unfold modbusReqTry
  rw [h.bus]
  simp only at hu ⊢
  split at hu
  · next h0 =>
    cases hu
    exact ⟨n, if_pos h0, h⟩
  next h0 =>
  rw [if_neg h0]
  split at hu
  · next h1 =>
    cases hu
    exact ⟨_, if_pos h1, refines_bus h.toRefines rfl h.responses, h.idle, h.got⟩
  next h1 =>
  rw [if_neg h1]
  split at hu
  · next h2 =>
    cases hu
    exact ⟨n, if_pos h2, h⟩
  next h2 =>
  rw [if_neg h2]
  split at hu
  · next h3 =>
    cases hu
    exact ⟨n, if_pos h3, h⟩
  next h3 =>
  rw [if_neg h3]
  obtain ⟨u1, hhandle, heq⟩ := Option.map_eq_some_iff.mp hu
  cases heq
  obtain ⟨n1, hok, hp⟩ := paused_reqHandle h hhandle
  exact ⟨n1, by rw [hok]; rfl, hp⟩

omit [DecidableEq ι] in
theorem paused_rspTry (h : Paused got u n) (past : UInt8) :
    (modbusRspTry past n).1 = (u.modbusRspTry past).1 ∧
      Paused got (u.modbusRspTry past).2 (modbusRspTry past n).2 := by
  unfold UsbModbus.modbusRspTry modbusRspTry
  rw [h.bus]
  simp only
  split
  · exact ⟨rfl, h⟩
  split
  · exact ⟨rfl, refines_bus h.toRefines rfl h.responses, h.idle, h.got⟩
  split
  · exact ⟨rfl, h⟩
  split
  · exact ⟨rfl, h⟩
  · exact ⟨rfl, refines_reset h.toRefines, h.idle, h.got⟩

theorem paused_rxTry (h : Paused got u n) {hd : Handler σ} {transferred fuel : Nat} {past : UInt8}
    (hu : u.modbusRxTry hd transferred fuel past = some u') :
    ∃ k n', modbusRxTry hd k fuel past n = .ok n' ∧ Paused got u' n' := by
  obtain ⟨u1, hreceive, hu⟩ := Option.bind_eq_some_iff.mp hu
  obtain ⟨⟨useful, u2⟩, hreq, hu⟩ := Option.bind_eq_some_iff.mp hu
  obtain ⟨k, h1⟩ := paused_receive h hreceive
  obtain ⟨n2, hok, h2⟩ := paused_reqTry h1 hreq
  have hrx : modbusRxTry hd k fuel past n = if useful then .ok n2 else
      if (modbusRspTry past n2).1 then .ok (modbusRspTry past n2).2
      else if (modbusRspTry past n2).2.bus.ptr ≠ 0 then .ok (modbusRspTry past n2).2.execClear
      else .ok (modbusRspTry past n2).2 := by
    unfold modbusRxTry
    rw [hok]
    rfl
  obtain ⟨huseful, h3⟩ := paused_rspTry h2 past
  simp only at hu hrx
  generalize u2.modbusRspTry past = r at hu huseful h3
  generalize modbusRspTry past n2 = r' at hrx huseful h3
  obtain ⟨useful3, u3⟩ := r
  obtain ⟨useful3', n3⟩ := r'
  obtain rfl : useful3' = useful3 := huseful
  refine ⟨k, ?_⟩
  rw [hrx]
  split at hu
  · next h4 =>
    cases hu
    exact ⟨n2, if_pos h4, h2⟩
  next h4 =>
  rw [if_neg h4]
  split at hu
  · next h5 =>
    cases hu
    exact ⟨n3, if_pos h5, h3⟩
  next h5 =>
  rw [if_neg h5, h3.bus]
  split at hu
  · next h6 =>
    cases hu
    exact ⟨_, if_pos h6, refines_execClear h3.toRefines, h3.idle, h3.got⟩
  · next h6 =>
    cases hu
    exact ⟨n3, if_neg h6, h3⟩

theorem onWork_refines (h : Paused got u n) {hd : Handler σ} {transferred fuel : Nat} {past : UInt8}
    (hu : u.onWork hd transferred fuel past = some u') :
    ∃ k n', onWork hd k fuel past n = .ok n' ∧ Paused got u' n' := by
  unfold UsbModbus.onWork at hu
  unfold onWork
  rw [h.bus]
  split at hu
  · next hrsp =>
    refine ⟨0, _, if_pos hrsp, paused_txTry h hu⟩
  · next hrsp =>
    obtain ⟨k, n', hok, hp⟩ := paused_rxTry h hu
    exact ⟨k, n', (if_neg hrsp).trans hok, hp⟩

/-- A step of the bridge that the unit does not see. -/
theorem refines_none (hr : Refines u n) {t : Flow ι} (hm : Moves u.flow t 0 []) (hflows : Flows t) :
    Refines { u with flow := t } n := by
  have hsame : (n.arrived []).drained 0 = n := by
    cases n
    simp [Node.arrived, Node.drained]
  exact hsame ▸ (refines_moves hr hm hflows).2

end UsbLemmas

/-! ## 3. Main results -/

namespace UsbLemmas

variable {u u' : UsbModbus ι σ} {n : Node σ}

/-- The unit on the line makes some steps, in which the bytes arrive that have come from the
host. -/
def Follows (h : Handler σ) (u : UsbModbus ι σ) (n : Node σ) (u' : UsbModbus ι σ) : Prop :=
  ∃ acts n', exec (step h) n acts = some n' ∧
    u'.flow.got = u.flow.got ++ acts.flatMap Act.bytes ∧ Refines u' n'

omit [DecidableEq ι] in
theorem follows_none {h : Handler σ} (hgot : u'.flow.got = u.flow.got) (hr : Refines u' n) :
    Follows h u n u' :=
  ⟨[], n, rfl, hgot.trans (List.append_nil _).symm, hr⟩

theorem follows_expire (hr : Refines u n) (h : Handler σ) (v : ι) :
    Follows h u n (u.mark v (u.flow.bridge.status v).expire) := by
  rcases eq_or_ne u.worker v with rfl | hworker
  · -- The worker never waits.
    have hstatus : (workerStatus n.worker).expire = workerStatus n.worker := by
      cases n.worker <;> rfl
    rw [hr.worker, hstatus]
    exact follows_none rfl (refines_mark_worker hr n.worker)
  rcases eq_or_ne u.clear v with rfl | hclear
  · rw [hr.clear]
    by_cases hn : n.clear = .waiting
    · refine ⟨[.expire], { n with clear := .pending }, ?_, (List.append_nil _).symm, ?_⟩
      · rw [exec, step, if_pos hn]
        rfl
      · rw [hn]
        exact refines_mark_clear hr .pending
    · have hstatus : n.clear.status.expire = n.clear.status := by
        generalize n.clear = clear at hn ⊢
        cases clear with
        | idle => rfl
        | waiting => exact absurd rfl hn
        | pending => rfl
      rw [hstatus]
      exact follows_none rfl (refines_mark_clear hr n.clear)
  · exact follows_none rfl (refines_mark_other hr hworker hclear _)

/-- The scheduler runs a task that is neither of the two of the unit: the unit makes no step. -/
theorem follows_run (hr : Refines u n) {h : Handler σ} {v : ι} {t : Flow ι}
    (hworker : u.worker ≠ v) (hclear : u.clear ≠ v) (hstep : u.flow.step (.run v) = some t) :
    Follows h u n { u with flow := t } := by
  have hflows := Cdc.step_flows hr.flows hstep
  obtain ⟨s, hs, rfl⟩ := Option.map_eq_some_iff.mp hstep
  simp only [Cdc.step] at hs
  split at hs
  · split at hs
    · next hhandler =>
      subst hhandler
      split at hs
      · next hidle =>
        cases hs
        refine follows_none rfl (refines_none hr (moves_none rfl rfl ?_ rfl rfl fun v hv _ => ?_)
          hflows)
        · rw [hidle]
          rfl
        · exact Function.update_of_ne hv _ _
      · cases hs
    · cases hs
      exact follows_none rfl (refines_mark_other hr hworker hclear _)
  · cases hs

theorem follows_bridge (hr : Refines u n) {h : Handler σ} {a : Cdc.Act ι} (ha : u.Outside a)
    {t : Flow ι} (hstep : u.flow.step a = some t) : Follows h u n { u with flow := t } := by
  have hflows := Cdc.step_flows hr.flows hstep
  have hmoved (happ : (∀ data, a ≠ .write data) ∧ ∀ n, a ≠ .read n)
      (htask : (∀ v, a ≠ .expire v) ∧ ∀ v, a ≠ .run v) : Follows h u n { u with flow := t } := by
    obtain ⟨len, bytes, hm⟩ := step_moves hstep happ htask
    obtain ⟨hlen, hrefines⟩ := refines_moves hr hm hflows
    refine ⟨[.arrive bytes, .drain len], _, ?_, ?_, hrefines⟩
    · show ((step h (n.arrived bytes) (.drain len)).bind _) = _
      rw [step, if_pos (show len ≤ (n.arrived bytes).used from hlen)]
      rfl
    · show t.got = u.flow.got ++ (bytes ++ ([] ++ []))
      rw [hm.got, List.append_nil, List.append_nil]
  cases a with
  | host | lineState | lineCoding | txComplete | rx | handler =>
    exact hmoved ⟨by simp, by simp⟩ ⟨by simp, by simp⟩
  | expire v =>
    cases hstep
    exact follows_expire hr h v
  | run v => exact follows_run hr ha.1.symm ha.2.1.symm hstep
  | write data => exact ha.elim
  | read k => exact ha.elim

end UsbLemmas

/-- Every step is some steps of the unit on the line. -/
theorem step_follows (hr : Refines u n) {h : Handler σ} {a : UsbAct ι}
    (hstep : u.step h a = some u') : Follows h u n u' := by
  cases a with
  | bridge a =>
    simp only [UsbModbus.step, Option.ite_none_right_eq_some] at hstep
    obtain ⟨ha, hmap⟩ := hstep
    obtain ⟨t, ht, rfl⟩ := Option.map_eq_some_iff.mp hmap
    exact follows_bridge hr ha ht
  | work transferred fuel past =>
    simp only [UsbModbus.step, Option.ite_none_right_eq_some] at hstep
    obtain ⟨⟨hpending, hidle⟩, hwork⟩ := hstep
    have hworker : n.worker = true := by
      rw [hr.worker] at hpending
      cases hn : n.worker with
      | true => rfl
      | false =>
        rw [hn] at hpending
        cases hpending
    obtain ⟨k, n', hok, hp⟩ := onWork_refines ⟨refines_mark_worker hr false, hidle, rfl⟩ hwork
    refine ⟨[.work k fuel past], n', ?_, hp.got.trans (List.append_nil _).symm, hp.toRefines⟩
    rw [exec, step, if_pos hworker, hok]
    rfl
  | clear =>
    simp only [UsbModbus.step, Option.ite_none_right_eq_some, Option.some.injEq] at hstep
    obtain ⟨⟨hpending, hidle⟩, rfl⟩ := hstep
    have hclear : n.clear = .pending := by
      rw [hr.clear] at hpending
      cases hn : n.clear with
      | idle =>
        rw [hn] at hpending
        cases hpending
      | waiting =>
        rw [hn] at hpending
        cases hpending
      | pending => rfl
    have hreset : Paused u.flow.got _ _ :=
      ⟨refines_reset (refines_mark_clear hr .idle), hidle, rfl⟩
    have hp := paused_execWorker hreset
    refine ⟨[.clear], _, ?_, hp.got.trans (List.append_nil _).symm, hp.toRefines⟩
    rw [exec, step, if_pos hclear]
    rfl
  | event =>
    simp only [UsbModbus.step] at hstep
    cases he : u.flow.bridge.onEvent with
    | none =>
      rw [he] at hstep
      cases hstep
    | some e =>
      rw [he] at hstep
      simp only [Option.ite_none_right_eq_some, Option.some.injEq] at hstep
      obtain ⟨-, rfl⟩ := hstep
      have hdistinct := hr.wired.distinct
      rw [he] at hdistinct
      have hmark := refines_mark_other hr (fun heq => hdistinct.event_ne (congrArg some heq.symm))
        (fun heq => hdistinct.event_ne_clear (congrArg some heq.symm)) .idle
      exact follows_none rfl (refines_none hmark
        (moves_none rfl rfl rfl rfl rfl fun _ _ _ => rfl) (hmark.flows.congr rfl rfl rfl rfl))

/-- The unit behind a bridge when both have just been initialised: no bytes are under way, and
neither task is asked for. -/
def UsbModbus.node (u : UsbModbus ι σ) : Node σ :=
  ⟨u.bus, [], u.flow.bridge.toUsb.free, 0, false, .idle, [], []⟩

namespace UsbLemmas

theorem init_refines {u : UsbModbus ι σ} (h0 : u.Init) :
    u.node.Init ∧ Refines u u.node ∧ u.flow.got = [] := by
  obtain ⟨flow, bus, addr, worker, clear, hinit, hdistinct, rfl⟩ := h0
  obtain ⟨handler, m, size, m', size', onEvent, ctsrts, status, connected, callback, hbridge,
    hwritten, hsent, hgot, hread⟩ := hinit
  obtain ⟨bridge, trData, written, sent, got, read⟩ := flow
  obtain rfl : bridge = _ := hbridge
  obtain rfl : written = [] := hwritten
  obtain rfl : sent = [] := hsent
  obtain rfl : got = [] := hgot
  obtain rfl : read = [] := hread
  refine ⟨⟨rfl, rfl, rfl, rfl, rfl, rfl⟩, ⟨⟨?_, ?_⟩, ⟨hdistinct, ⟨rfl, rfl⟩, ⟨rfl, rfl⟩⟩, rfl, rfl,
    rfl, rfl, rfl, rfl, ?_, ?_⟩, rfl⟩
  · exact carried_init m size (some handler) (some worker)
  · exact carried_init m' size' (some worker) (some handler)
  · exact (Function.update_of_ne hdistinct.clear_ne.symm _ _).trans (Function.update_self _ _ _)
  · exact Function.update_self _ _ _

theorem reachable_follows {h : Handler σ} {u0 u : UsbModbus ι σ} (h0 : u0.Init)
    (hu : (usbModbus h u0).Reachable u) : ∃ acts n, exec (step h) u0.node acts = some n ∧
      acts.flatMap Act.bytes = u.flow.got ∧ Refines u n := by
  refine hu.invariant (I := fun u => ∃ acts n, exec (step h) u0.node acts = some n ∧
    acts.flatMap Act.bytes = u.flow.got ∧ Refines u n) ?_ ?_
  · rintro u rfl
    obtain ⟨-, hr, hgot⟩ := init_refines h0
    exact ⟨[], _, rfl, hgot.symm, hr⟩
  · rintro u a u' ⟨acts, n, hexec, hgot, hr⟩ hstep
    obtain ⟨acts', n', hexec', hgot', hr'⟩ := step_follows hr hstep
    refine ⟨acts ++ acts', n', ?_, ?_, hr'⟩
    · rw [exec_append, hexec]
      exact hexec'
    · rw [List.flatMap_append, hgot, hgot']

end UsbLemmas

/-- In every run, under every order of host events, callbacks, alarms and tasks, the unit is one on
a line to which the bytes of the host have arrived, and the host has got a part of what that unit
has written. The rest is in the FIFO, outside of the handler of the bridge. -/
theorem usb_refines (h : Handler σ) {u0 u : UsbModbus ι σ} (h0 : u0.Init)
    (hu : (usbModbus h u0).Reachable u) :
    u0.node.Init ∧ ∃ acts n, exec (step h) u0.node acts = some n ∧
      acts.flatMap Act.bytes = u.flow.got ∧ n.bus = u.bus ∧ n.responses = u.responses ∧
      u.flow.sent <+: n.written ∧
      (u.flow.bridge.run = .idle → n.rx = queued u.flow.bridge.fromUsb ∧
        n.written = u.flow.sent ++ queued u.flow.bridge.toUsb) := by
  obtain ⟨acts, n, hexec, hgot, hr⟩ := reachable_follows h0 hu
  refine ⟨(init_refines h0).1, acts, n, hexec, hgot, hr.bus, hr.responses, ?_, fun hidle => ?_⟩
  · rw [hr.written]
    exact (Carried.inOrder hr.flows.to_usb).1
  · have hp : Paused u.flow.got u n := ⟨hr, hidle, rfl⟩
    exact ⟨paused_rx hp, hr.written.trans (carried_quiet (paused_carried hp).1).2⟩

namespace UsbLemmas

/-- A bridge with two FIFOs of 16 bytes, whose host is connected. -/
def demoFlow : Flow Nat where
  bridge := Cdc.prCdcInterfaceInit 0 (prFifoInit (fun _ => 0) 16) (prFifoInit (fun _ => 0) 16)
    (some 1) false (fun _ => .idle) true false
  trData := 0
  written := []
  sent := []
  got := []
  read := []

def demo : UsbModbus Nat UInt16 := prModbusInit demoFlow ⟨0, fun _ => 0, 0, 0, 0, []⟩ 9 2 3

theorem demo_init : demo.Init :=
  ⟨demoFlow, ⟨0, fun _ => 0, 0, 0, 0, []⟩, 9, 2, 3,
    ⟨0, fun _ => 0, 16, fun _ => 0, 16, some 1, false, fun _ => .idle, true, false, rfl, rfl, rfl,
      rfl, rfl⟩,
    ⟨by decide, by decide, by decide, by decide, by decide⟩, rfl⟩

/-- The handler receives a request, the worker answers it, and the handler sends the response. -/
def coilsRead : List (UsbAct Nat) :=
  let request := readRequest 9 readCoils 0 2
  let usb : Cdc.Usb := ⟨64, request.length, fun i => request.getD i 0⟩
  .bridge (.run 0) :: List.replicate 9 (.bridge (.handler usb)) ++
    [.work 0 8 0, .bridge (.run 0)] ++
    List.replicate 8 (.bridge (.handler { usb with available := 0 }))

theorem demo_run : ∃ u, exec (UsbModbus.step usbModbusHandler) demo coilsRead = some u ∧
    u.flow.sent = withCrc [9, 1, 1, 0] ∧ u.flow.got = readRequest 9 readCoils 0 2 := by
  have hrun : (exec (UsbModbus.step usbModbusHandler) demo coilsRead).map
      (fun u => (u.flow.sent, u.flow.got)) =
      some (withCrc [9, 1, 1, 0], readRequest 9 readCoils 0 2) := by decide +kernel
  obtain ⟨u, hu, hfields⟩ := Option.map_eq_some_iff.mp hrun
  obtain ⟨hsent, hgot⟩ := Prod.mk.inj hfields
  exact ⟨u, hu, hsent, hgot⟩

end UsbLemmas

open UsbLemmas in
/-- A request comes from the host, and the response goes back. -/
theorem usb_refines_demo :
    ∃ u, exec (UsbModbus.step usbModbusHandler) demo coilsRead = some u ∧
      u.flow.sent = withCrc [9, 1, 1, 0] ∧
      ∃ acts n, exec (step usbModbusHandler) demo.node acts = some n ∧
        acts.flatMap Act.bytes = readRequest 9 readCoils 0 2 ∧ u.flow.sent <+: n.written := by
  obtain ⟨u, hu, hsent, hgot⟩ := demo_run
  obtain ⟨-, acts, n, hexec, hbytes, -, -, hprefix, -⟩ :=
    usb_refines usbModbusHandler demo_init (Lts.reachable_exec (.init rfl) hu)
  exact ⟨u, hu, hsent, acts, n, hexec, hbytes.trans hgot, hprefix⟩

open SilenceLemmas in
/-- In every run, the callbacks are made, and the host gets bytes, for requests to this unit that
are among the bytes of the host. Without one, the application is as it was and the host gets
nothing. -/
theorem usb_silent (h : Handler σ) {u0 u : UsbModbus ι σ} (h0 : u0.Init)
    (hu : (usbModbus h u0).Reachable u) :
    (∃ written, u.flow.sent <+: written ∧
      History h u0.bus.addr u.flow.got u0.bus.app u0.bus.calls u.bus.app u.bus.calls written) ∧
      ((∀ frame, RequestFrame frame → frame.head? = some u0.bus.addr →
          ¬ frame <:+: u.flow.got) →
        u.bus.app = u0.bus.app ∧ u.bus.calls = u0.bus.calls ∧ u.flow.sent = []) := by
  obtain ⟨acts, n, hexec, hgot, hr⟩ := reachable_follows h0 hu
  have hhist := Sound.history (exec_sound (init_sound (init_refines h0).1) hexec)
  have hsent : u.flow.sent <+: n.written := hr.written ▸ (Carried.inOrder hr.flows.to_usb).1
  have harrived : u0.node.rx ++ acts.flatMap Act.bytes = u.flow.got := hgot
  rw [harrived, hr.bus] at hhist
  refine ⟨⟨n.written, hsent, hhist⟩, fun hnone => ?_⟩
  obtain ⟨happ, hcalls, hwritten⟩ := History.untouched hhist hnone
  rw [hwritten] at hsent
  exact ⟨happ, hcalls, List.prefix_nil.mp hsent⟩

open UsbLemmas in
theorem usb_silent_demo :
    ∃ u, exec (UsbModbus.step usbModbusHandler) demo coilsRead = some u ∧
      ∃ written, withCrc [9, 1, 1, 0] <+: written ∧
        History usbModbusHandler 9 (readRequest 9 readCoils 0 2) 0 [] u.bus.app u.bus.calls
          written := by
  obtain ⟨u, hu, hsent, hgot⟩ := demo_run
  obtain ⟨⟨written, hprefix, hhist⟩, -⟩ :=
    usb_silent usbModbusHandler demo_init (Lts.reachable_exec (.init rfl) hu)
  rw [hsent] at hprefix
  rw [hgot] at hhist
  exact ⟨u, hu, written, hprefix, hhist⟩

end

end Picore.Modbus
