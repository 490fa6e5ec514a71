import Picore.Modbus.Safety
import Picore.Lib.Transition

/-!
# A unit on a Modbus line (`src/modbus/modbus.c`)

The rest of `modbus.c` around the handling of a request: the two parsers, the two
FIFOs, and the tasks `worker` and `clear`. What the transport does, what the timer
does, and when the tasks run are steps of their own.

A FIFO keeps its bytes in order, and a read or a write copies as many bytes as there
are, or as there is room for. A read is given a bound `k` on what it returns:
`bufferSize` for the documented behaviour.

Results:
1. `busReqRespond_called`, `busReqRespond_ignored`: what a request leaves in `ptr` and
   `rsp_size`.
2. `step`: the steps of a unit, as a partial function.
-/

namespace Picore.Modbus

open Memory Fuel Transition

variable {σ : Type}

/-! ## 1. What a request leaves behind -/

theorem busReqRespond_called {h : Handler σ} {size fuel : Nat} {s s' : PrModbus σ}
    (hok : busReqRespond h size fuel s = .ok (true, s')) :
    s'.ptr = 0 ∧ 0 < s'.rspSize ∧ s'.rspSize ≤ bufferSize := by
  by_cases haddr : s.buffer 0 = s.addr
  · rw [busReqRespond_addressed size fuel haddr] at hok
    obtain ⟨⟨err, s1⟩, -, hok⟩ := bind_eq_ok.mp hok
    obtain ⟨s2, -, hok⟩ := bind_eq_ok.mp hok
    obtain ⟨s3, hresp, hok⟩ := bind_eq_ok.mp hok
    cases hok
    rcases Nat.lt_or_ge 254 s2.ptr with h1 | h1
    · obtain ⟨e, he⟩ := respond_fault h1
      rw [he] at hresp
      cases hresp
    · rw [respond_ok h1] at hresp
      cases hresp
      exact ⟨rfl, Nat.succ_pos _, Nat.add_le_add_right h1 2⟩
  · rw [busReqRespond_other h size fuel haddr] at hok
    cases hok

theorem busReqRespond_ignored {h : Handler σ} {size fuel : Nat} {s s' : PrModbus σ}
    (hok : busReqRespond h size fuel s = .ok (false, s')) :
    s' = { s with ptr := 0, rspSize := 0 } := by
  by_cases haddr : s.buffer 0 = s.addr
  · rw [busReqRespond_addressed size fuel haddr] at hok
    obtain ⟨⟨err, s1⟩, -, hok⟩ := bind_eq_ok.mp hok
    obtain ⟨s2, -, hok⟩ := bind_eq_ok.mp hok
    obtain ⟨s3, -, hok⟩ := bind_eq_ok.mp hok
    cases hok
  · rw [busReqRespond_other h size fuel haddr] at hok
    cases hok
    rfl

/-! ## 2. The unit -/

/-- The status of the task `clear`, which `pr_task_exec_in_ms` makes wait for its deadline. -/
inductive ClearTask
  | idle
  | waiting
  | pending
  deriving DecidableEq

/-- `struct pr_modbus` with its FIFOs and tasks. `free` and `used` are those of the tx
FIFO. `written` are all bytes ever written to it, and `responses` all responses that
`bus_req_handle` has made. -/
structure Node (σ : Type) where
  bus : PrModbus σ
  rx : List UInt8
  free : Nat
  used : Nat
  worker : Bool
  clear : ClearTask
  written : List UInt8
  responses : List (List UInt8)

/-- `pr_task_exec(&bus->worker)` if the rx FIFO is not empty. -/
def Node.execWorker (n : Node σ) : Node σ := { n with worker := n.worker || !n.rx.isEmpty }

/-- `pr_task_exec_in_ms(&bus->clear, TIMEOUT_MS)`. -/
def Node.execClear (n : Node σ) : Node σ :=
  { n with clear := if n.clear = .pending then .pending else .waiting }

/-- `ptr` and `rsp_size` are set to zero. -/
def Node.reset (n : Node σ) : Node σ := { n with bus := { n.bus with ptr := 0, rspSize := 0 } }

/-- `modbus_tx_try`. `ptr` is never above `rsp_size` here. -/
def modbusTxTry (n : Node σ) : Node σ :=
  let txLen := min (n.bus.rspSize - n.bus.ptr) n.free
  let n := { n with
    bus := { n.bus with ptr := n.bus.ptr + txLen }
    free := n.free - txLen
    used := n.used + txLen
    written := n.written ++ load n.bus.buffer n.bus.ptr txLen }
  if n.bus.ptr = n.bus.rspSize then n.reset.execWorker else n

/-- `bus_req_handle`: the response is made in the buffer and the first part of it goes to the tx
FIFO. A request for another unit leaves nothing. -/
def busReqHandle (h : Handler σ) (size fuel : Nat) (n : Node σ) :
    Outcome OutOfBounds (Node σ) := do
  let (called, bus) ← busReqRespond h size fuel n.bus
  let n := { n with bus := bus }
  if called then
    .ok (modbusTxTry { n with responses := n.responses ++ [load bus.buffer 0 bus.rspSize] })
  else .ok n

/-- The unit after a request, from what `busReqRespond` has made of it. -/
def Node.handled (n : Node σ) (r : Bool × PrModbus σ) : Node σ :=
  if r.1 then
    modbusTxTry { n with bus := r.2, responses := n.responses ++ [load r.2.buffer 0 r.2.rspSize] }
  else { n with bus := r.2 }

theorem busReqHandle_eq (h : Handler σ) (size fuel : Nat) (n : Node σ) :
    busReqHandle h size fuel n =
      busReqRespond h size fuel n.bus >>= fun r => .ok (n.handled r) := by
  refine congrArg _ (funext fun r => ?_)
  obtain ⟨called, bus⟩ := r
  cases called <;> rfl

def busRspHandle (n : Node σ) : Node σ := n.reset

def modbusReqTry (h : Handler σ) (fuel : Nat) (n : Node σ) :
    Outcome OutOfBounds (Bool × Node σ) :=
  let frameLen := modbusReqFrameLen n.bus.buffer n.bus.ptr
  if frameLen = 0 then .ok (false, n)
  else if frameLen > bufferSize then .ok (true, { n with bus := { n.bus with ptr := 0 } })
  else if frameLen > n.bus.ptr then .ok (false, n)
  else if ¬ crcValid (load n.bus.buffer 0 frameLen) then .ok (false, n)
  else do
    let n ← busReqHandle h frameLen fuel n
    .ok (true, n)

def modbusRspTry (past : UInt8) (n : Node σ) : Bool × Node σ :=
  let frameLen := modbusRspFrameLen past n.bus.buffer n.bus.ptr
  if frameLen = 0 then (false, n)
  else if frameLen > bufferSize then (true, { n with bus := { n.bus with ptr := 0 } })
  else if frameLen > n.bus.ptr then (false, n)
  else if ¬ crcValid (load n.bus.buffer 0 frameLen) then (false, n)
  else (true, busRspHandle n)

/-- What `pr_fifo_read` copies from the rx FIFO into the buffer. -/
def Node.received (k : Nat) (n : Node σ) : Node σ :=
  let bytes := n.rx.take (min k (bufferSize - n.bus.ptr))
  { n with
    bus := { n.bus with
      buffer := store n.bus.buffer n.bus.ptr bytes
      ptr := n.bus.ptr + bytes.length }
    rx := n.rx.drop bytes.length }

def modbusRxTry (h : Handler σ) (k fuel : Nat) (past : UInt8) (n : Node σ) :
    Outcome OutOfBounds (Node σ) := do
  let (useful, n) ← modbusReqTry h fuel (n.received k)
  if useful then .ok n
  else
    let (useful, n) := modbusRspTry past n
    if useful then .ok n
    else if n.bus.ptr ≠ 0 then .ok n.execClear
    else .ok n

def modbusClear (n : Node σ) : Node σ := n.reset.execWorker

def onClear (n : Node σ) : Node σ := modbusClear n

def onWork (h : Handler σ) (k fuel : Nat) (past : UInt8) (n : Node σ) :
    Outcome OutOfBounds (Node σ) :=
  if n.bus.rspSize ≠ 0 then .ok (modbusTxTry n) else modbusRxTry h k fuel past n

/-- The state after `pr_modbus_init`. The FIFOs are not touched by it, so there may be bytes in
both. -/
structure Node.Init (n : Node σ) : Prop where
  ptr : n.bus.ptr = 0
  rsp_size : n.bus.rspSize = 0
  worker : n.worker = false
  clear : n.clear = .idle
  written : n.written = []
  responses : n.responses = []

/-! ## 3. Steps -/

/-- The labels of the steps: what the transport does with the two FIFOs, and the runs of the two
tasks, in any order. -/
inductive Act
  /-- The transport writes to the rx FIFO. -/
  | arrive (bytes : List UInt8)
  /-- The worker runs. -/
  | work (k fuel : Nat) (past : UInt8)
  /-- The deadline of `clear` passes. -/
  | expire
  /-- `clear` runs. -/
  | clear
  /-- The transport takes bytes from the tx FIFO. -/
  | drain (len : Nat)

/-- The rx FIFO has been written to, which wakes the worker. -/
def Node.arrived (bytes : List UInt8) (n : Node σ) : Node σ :=
  { n with rx := n.rx ++ bytes, worker := n.worker || !bytes.isEmpty }

/-- The tx FIFO has been read from, which wakes the worker. -/
def Node.drained (len : Nat) (n : Node σ) : Node σ :=
  { n with free := n.free + len, used := n.used - len, worker := n.worker || len != 0 }

/-- One step. A worker whose request faults or does not return takes none. -/
def step (h : Handler σ) (n : Node σ) : Act → Option (Node σ)
  | .arrive bytes => some (n.arrived bytes)
  | .work k fuel past =>
    if n.worker then (onWork h k fuel past { n with worker := false }).toOption else none
  | .expire => if n.clear = .waiting then some { n with clear := .pending } else none
  | .clear => if n.clear = .pending then some (onClear { n with clear := .idle }) else none
  | .drain len => if len ≤ n.used then some (n.drained len) else none

theorem step_work {h : Handler σ} {n n' : Node σ} {k fuel : Nat} {past : UInt8}
    (hstep : step h n (.work k fuel past) = some n') :
    n.worker = true ∧ onWork h k fuel past { n with worker := false } = .ok n' := by
  rw [step] at hstep
  split at hstep
  · exact ⟨‹_›, toOption_eq_some.mp hstep⟩
  · cases hstep

theorem step_clear {h : Handler σ} {n n' : Node σ} (hstep : step h n .clear = some n') :
    n.clear = .pending ∧ n' = onClear { n with clear := .idle } := by
  rw [step] at hstep
  split at hstep
  · cases hstep
    exact ⟨‹_›, rfl⟩
  · cases hstep

theorem step_expire {h : Handler σ} {n n' : Node σ} (hstep : step h n .expire = some n') :
    n.clear = .waiting ∧ n' = { n with clear := .pending } := by
  rw [step] at hstep
  split at hstep
  · cases hstep
    exact ⟨‹_›, rfl⟩
  · cases hstep

theorem step_drain {h : Handler σ} {n n' : Node σ} {len : Nat}
    (hstep : step h n (.drain len) = some n') : len ≤ n.used ∧ n' = n.drained len := by
  rw [step] at hstep
  split at hstep
  · cases hstep
    exact ⟨‹_›, rfl⟩
  · cases hstep

/-- A unit on a line, from `pr_modbus_init` on, with everything that the transport, the timer and
the scheduler may do. -/
def line (h : Handler σ) : Lts (Node σ) Act := Lts.ofFun Node.Init (step h)

end Picore.Modbus
