import Picore.Lib.Chain
import Picore.Lib.Fuel

/-!
# The scheduler (`src/task/task.c`)

One task queue and the tasks bound to it. The two lists of the queue, pending
and waiting, share the `next` pointer of the tasks. The waiting list is walked
with a pointer to a pointer, a `Cell`.

A section between `spin_lock_blocking` and `spin_unlock` is a function of its
own, so that the calls of the library and the interleavings of several contexts
are made of the same pieces. The alarms of the Pico SDK are the list of those
that are armed. A failed `assert` and an access through `NULL` are faults.
-/

namespace Picore.Task

open Fuel Chain

variable {ι : Type}

/-- `struct pr_task`. The two bits of `flags` are two fields, and `queue` and
`handler` tell whether these pointers are set. -/
structure PrTask (ι : Type) where
  next : Option ι
  pending : Bool
  waiting : Bool
  queue : Bool
  handler : Bool
  exec_at : Nat

/-- `struct pr_task_queue` without its lock: both ends of the pending list, the head of the waiting
list, and the id of its alarm, negative for none. -/
structure PrTaskQueue (ι : Type) where
  first : Option ι
  last : Option ι
  waiting : Option ι
  alarm : Int

/-- The queue, every task, and the armed alarms with their times. -/
structure Sched (ι : Type) where
  queue : PrTaskQueue ι
  tasks : ι → PrTask ι
  alarms : List (Int × Nat)

/-- The errors of the program that the functions can run into: an `assert` that does not hold, and
an access through `NULL`. -/
inductive Fault
  | assertFailed
  | nullPointer

/-- What the Pico SDK answers during one call: the current time, the deadline of
a delay, and the id that `add_alarm_at` returns for a time while certain alarms
are armed. -/
structure Sdk where
  getAbsoluteTime : Nat
  makeTimeoutTimeUs : Nat → Nat
  makeTimeoutTimeMs : Nat → Nat
  alarmId : List (Int × Nat) → Nat → Int

def prTaskInit (queue handler : Bool) : PrTask ι where
  next := none
  pending := false
  waiting := false
  queue := queue
  handler := handler
  exec_at := 0

/-- `pr_task_queue_init`. The field `alarm` keeps its value. -/
def prTaskQueueInit (queue : PrTaskQueue ι) : PrTaskQueue ι :=
  { queue with first := none, last := none, waiting := none }

section Lists

variable [DecidableEq ι]

def Sched.set (s : Sched ι) (t : ι) (x : PrTask ι) : Sched ι :=
  { s with tasks := Function.update s.tasks t x }

/-- `t->next = v`. -/
def Sched.setNext (s : Sched ι) (t : ι) (v : Option ι) : Sched ι :=
  s.set t { s.tasks t with next := v }

def Sched.waitLinks (s : Sched ι) : Links ι where
  head := s.queue.waiting
  next t := (s.tasks t).next

/-- `*cur = v`. -/
def Sched.assign (s : Sched ι) (cur : Cell ι) (v : Option ι) : Sched ι :=
  match cur with
  | .head => { s with queue := { s.queue with waiting := v } }
  | .next t => s.setNext t v

/-- The `while` loop of `pr_task_wait_queue_remove`. -/
def waitRemoveLoop (task : ι) : Nat → Cell ι → Sched ι → Outcome Fault (Sched ι)
  | 0, _, _ => .error .timeout
  | fuel + 1, cur, s =>
    match s.waitLinks.deref cur with
    | none => .ok s
    | some t =>
      if t = task then
        let s := s.assign cur (s.tasks task).next
        .ok (s.set task { s.tasks task with next := none, waiting := false, exec_at := 0 })
      else waitRemoveLoop task fuel (.next t) s

def prTaskWaitQueueRemove (task : ι) (fuel : Nat) (s : Sched ι) : Outcome Fault (Sched ι) :=
  if s.queue.waiting = none then .error (.fault .assertFailed)
  else waitRemoveLoop task fuel .head s

def prTaskWaitQueuePop (s : Sched ι) : Option ι × Sched ι :=
  match s.queue.waiting with
  | none => (none, s)
  | some task =>
    let s := { s with queue := { s.queue with waiting := (s.tasks task).next } }
    (some task, s.set task { s.tasks task with next := none, waiting := false, exec_at := 0 })

/-- The `while` loop of `pr_task_wait_queue_insert`: the cell to insert at. -/
def waitInsertCell (deadline : Nat) (s : Sched ι) : Nat → Cell ι → Outcome Fault (Cell ι)
  | 0, _ => .error .timeout
  | fuel + 1, cur =>
    match s.waitLinks.deref cur with
    | none => .ok cur
    | some t =>
      if (s.tasks t).exec_at < deadline then waitInsertCell deadline s fuel (.next t) else .ok cur

def prTaskWaitQueueInsert (task : ι) (deadline fuel : Nat) (s : Sched ι) :
    Outcome Fault (Sched ι) := do
  let cur ← waitInsertCell deadline s fuel .head
  let s := s.set task { s.tasks task with exec_at := deadline, waiting := true }
  let s := s.setNext task (s.waitLinks.deref cur)
  .ok (s.assign cur (some task))

def prTaskPendingQueuePop (s : Sched ι) : Option ι × Sched ι :=
  match s.queue.first with
  | none => (none, s)
  | some task =>
    let s := { s with queue := { s.queue with
      first := (s.tasks task).next
      last := if s.queue.last = some task then none else s.queue.last } }
    (some task, s.set task { s.tasks task with next := none, pending := false })

/-- `if (queue->last) queue->last->next = task`. -/
def linkLast (task : ι) (s : Sched ι) : Sched ι :=
  match s.queue.last with
  | some last => s.setNext last (some task)
  | none => s

def prTaskPendingQueueInsert (task : ι) (s : Sched ι) : Sched ι :=
  let s := s.set task { s.tasks task with pending := true }
  let s := linkLast task (s.setNext task none)
  { s with queue := { s.queue with
    last := some task
    first := if s.queue.first = none then some task else s.queue.first } }

/-! ## The locked sections -/

/-- The locked section of `pr_task_exec`, with the value of `reschedule`. -/
def execLocked (task : ι) (fuel : Nat) (s : Sched ι) : Outcome Fault (Bool × Sched ι) :=
  if (s.tasks task).pending then .ok (false, s)
  else do
    let reschedule := (s.tasks task).waiting
    let s ← (if reschedule then prTaskWaitQueueRemove task fuel s else .ok s : Outcome ..)
    .ok (reschedule, prTaskPendingQueueInsert task s)

/-- The locked section of `pr_task_exec_in_us` and `pr_task_exec_in_ms`. -/
def execInLocked (task : ι) (deadline fuel : Nat) (s : Sched ι) : Outcome Fault (Sched ι) := do
  let s ← (if (s.tasks task).waiting then prTaskWaitQueueRemove task fuel s else .ok s : Outcome ..)
  prTaskWaitQueueInsert task deadline fuel s

/-- The locked section of `queue_waiting_process`. -/
def waitingProcessLocked (now : Nat) : Nat → Sched ι → Outcome Fault (Sched ι)
  | 0, _ => .error .timeout
  | fuel + 1, s =>
    match s.queue.waiting with
    | none => .ok s
    | some t =>
      if (s.tasks t).exec_at ≤ now then
        match prTaskWaitQueuePop s with
        | (none, _) => .error (.fault .nullPointer)
        | (some task, s) => waitingProcessLocked now fuel (prTaskPendingQueueInsert task s)
      else .ok s

/-! ## The alarm -/

/-- `cancel_alarm` disarms the given id. -/
def cancelAlarm (id : Int) (s : Sched ι) : Sched ι :=
  { s with alarms := s.alarms.filter fun a => a.1 ≠ id }

/-- `add_alarm_at` arms an alarm when the id that it returns is positive. -/
def addAlarmAt (sdk : Sdk) (time : Nat) (s : Sched ι) : Int × Sched ι :=
  let id := sdk.alarmId s.alarms time
  (id, { s with alarms := if 0 < id then (id, time) :: s.alarms else s.alarms })

/-- The part of `queue_reschedule` before its locked section: the old alarm is cancelled. -/
def rescheduleCancel (s : Sched ι) : Sched ι :=
  if s.queue.alarm ≥ 0 then
    let s := cancelAlarm s.queue.alarm s
    { s with queue := { s.queue with alarm := -1 } }
  else s

/-- The locked section of `queue_reschedule`. -/
def rescheduleArm (sdk : Sdk) (s : Sched ι) : Outcome Fault (Sched ι) :=
  match s.queue.waiting with
  | none => .error (.fault .nullPointer)
  | some t =>
    let (id, s) := addAlarmAt sdk (s.tasks t).exec_at s
    .ok { s with queue := { s.queue with alarm := id } }

def queueReschedule (sdk : Sdk) (s : Sched ι) : Outcome Fault (Sched ι) :=
  let s := rescheduleCancel s
  if s.queue.waiting = none then .ok s else rescheduleArm sdk s

/-! ## The calls -/

def prTaskExec (sdk : Sdk) (task : Option ι) (fuel : Nat) (s : Sched ι) :
    Outcome Fault (Int × Sched ι) :=
  match task with
  | none => .ok (-1, s)
  | some task =>
    if !(s.tasks task).handler then .ok (-1, s)
    else if !(s.tasks task).queue then .ok (-1, s)
    else do
      let (reschedule, s) ← execLocked task fuel s
      let s ← (if reschedule then queueReschedule sdk s else .ok s : Outcome ..)
      .ok (0, s)

/-- The body of `pr_task_exec_in_us` and `pr_task_exec_in_ms`. -/
def execIn (sdk : Sdk) (task : ι) (deadline fuel : Nat) (s : Sched ι) : Outcome Fault (Sched ι) :=
  if (s.tasks task).pending then .ok s
  else if !(s.tasks task).queue then .error (.fault .nullPointer)
  else do
    let s ← execInLocked task deadline fuel s
    queueReschedule sdk s

def prTaskExecInUs (sdk : Sdk) (task : ι) (us fuel : Nat) (s : Sched ι) :
    Outcome Fault (Sched ι) :=
  execIn sdk task (sdk.makeTimeoutTimeUs us) fuel s

def prTaskExecInMs (sdk : Sdk) (task : ι) (ms fuel : Nat) (s : Sched ι) :
    Outcome Fault (Sched ι) :=
  execIn sdk task (sdk.makeTimeoutTimeMs ms) fuel s

def queueWaitingProcess (sdk : Sdk) (fuel : Nat) (s : Sched ι) : Outcome Fault (Sched ι) := do
  let s ← waitingProcessLocked sdk.getAbsoluteTime fuel s
  queueReschedule sdk s

/-- `ptask_alarm`. The alarm `id` has fired, so it is not armed any more. -/
def ptaskAlarm (sdk : Sdk) (id : Int) (fuel : Nat) (s : Sched ι) : Outcome Fault (Sched ι) :=
  let s := cancelAlarm id s
  queueWaitingProcess sdk fuel { s with queue := { s.queue with alarm := -1 } }

/-- A call on the queue. `pop` is one round of `pr_task_queue_run_until_empty`
up to the call of the handler. -/
inductive Call (ι : Type)
  | exec (task : Option ι)
  | execInUs (task : ι) (us : Nat)
  | execInMs (task : ι) (ms : Nat)
  | alarm (id : Int)
  | pop

/-- What a call returns: the status of `pr_task_exec` and its variants, the task that the scheduler
is to run, or nothing. -/
inductive Reply (ι : Type)
  | status (err : Int)
  | task (task : Option ι)
  | done

def Call.run (sdk : Sdk) (fuel : Nat) (s : Sched ι) : Call ι → Outcome Fault (Reply ι × Sched ι)
  | .exec task => do
    let (err, s) ← prTaskExec sdk task fuel s
    .ok (.status err, s)
  | .execInUs task us => do
    let s ← prTaskExecInUs sdk task us fuel s
    .ok (.done, s)
  | .execInMs task ms => do
    let s ← prTaskExecInMs sdk task ms fuel s
    .ok (.done, s)
  | .alarm id => do
    let s ← ptaskAlarm sdk id fuel s
    .ok (.done, s)
  | .pop =>
    let (task, s) := prTaskPendingQueuePop s
    .ok (.task task, s)

/-- A sequence of calls, one after the other, and what each of them returns. The SDK may answer
something else in each. -/
def runCalls (fuel : Nat) : List (Sdk × Call ι) → Sched ι →
    Outcome Fault (List (Reply ι) × Sched ι)
  | [], s => .ok ([], s)
  | (sdk, call) :: calls, s => do
    let (reply, s) ← call.run sdk fuel s
    let (replies, s) ← runCalls fuel calls s
    .ok (reply :: replies, s)

/-! ## Fuel

More fuel only lets a function go further. -/

theorem waitRemoveLoop_fueled (task : ι) (fuel : Nat) : ∀ (cur : Cell ι) (s : Sched ι),
    Approx (waitRemoveLoop task fuel cur s) (waitRemoveLoop task (fuel + 1) cur s) := by
  induction fuel with
  | zero => exact fun _ _ => .timeout _
  | succ fuel ih =>
    intro cur s
    rw [waitRemoveLoop, waitRemoveLoop]
    split
    · exact .refl _
    · split
      · exact .refl _
      · exact ih _ _

theorem prTaskWaitQueueRemove_fueled (task : ι) (s : Sched ι) :
    Fueled fun fuel => prTaskWaitQueueRemove task fuel s := by
  intro fuel
  simp only [prTaskWaitQueueRemove]
  split
  · exact .refl _
  · exact waitRemoveLoop_fueled task fuel _ _

omit [DecidableEq ι] in
theorem waitInsertCell_fueled (deadline : Nat) (s : Sched ι) (fuel : Nat) : ∀ cur : Cell ι,
    Approx (waitInsertCell deadline s fuel cur) (waitInsertCell deadline s (fuel + 1) cur) := by
  induction fuel with
  | zero => exact fun _ => .timeout _
  | succ fuel ih =>
    intro cur
    rw [waitInsertCell, waitInsertCell]
    split
    · exact .refl _
    · split
      · exact ih _
      · exact .refl _

theorem waitingProcessLocked_fueled (now fuel : Nat) : ∀ s : Sched ι,
    Approx (waitingProcessLocked now fuel s) (waitingProcessLocked now (fuel + 1) s) := by
  induction fuel with
  | zero => exact fun _ => .timeout _
  | succ fuel ih =>
    intro s
    rw [waitingProcessLocked, waitingProcessLocked]
    split
    · exact .refl _
    · split
      · split
        · exact .refl _
        · exact ih _
      · exact .refl _

theorem unwait_fueled (task : ι) (s : Sched ι) : Fueled fun fuel =>
    (if (s.tasks task).waiting then prTaskWaitQueueRemove task fuel s else .ok s :
      Outcome Fault (Sched ι)) := by
  intro fuel
  dsimp only
  split
  · exact prTaskWaitQueueRemove_fueled task s fuel
  · exact .refl _

theorem execLocked_fueled (task : ι) (s : Sched ι) :
    Fueled fun fuel => execLocked task fuel s := by
  intro fuel
  simp only [execLocked]
  split
  · exact .refl _
  · exact (unwait_fueled task s fuel).bind fun _ => .refl _

theorem execInLocked_fueled (task : ι) (deadline : Nat) (s : Sched ι) :
    Fueled fun fuel => execInLocked task deadline fuel s := fun fuel =>
  (unwait_fueled task s fuel).bind fun s =>
    (waitInsertCell_fueled deadline s fuel .head).bind fun _ => .refl _

theorem execIn_fueled (sdk : Sdk) (task : ι) (deadline : Nat) (s : Sched ι) :
    Fueled fun fuel => execIn sdk task deadline fuel s := by
  intro fuel
  simp only [execIn]
  split
  · exact .refl _
  · split
    · exact .refl _
    · exact (execInLocked_fueled task deadline s fuel).bind fun _ => .refl _

theorem Call.run_fueled (sdk : Sdk) (c : Call ι) (s : Sched ι) :
    Fueled fun fuel => c.run sdk fuel s := by
  intro fuel
  cases c with
  | exec task =>
    refine Approx.bind ?_ fun _ => .refl _
    cases task with
    | none => exact .refl _
    | some task =>
      simp only [prTaskExec]
      split
      · exact .refl _
      · split
        · exact .refl _
        · exact (execLocked_fueled task s fuel).bind fun _ => .refl _
  | execInUs task us => exact (execIn_fueled sdk task _ s fuel).bind fun _ => .refl _
  | execInMs task ms => exact (execIn_fueled sdk task _ s fuel).bind fun _ => .refl _
  | alarm id =>
    refine Approx.bind ?_ fun _ => .refl _
    exact (waitingProcessLocked_fueled _ fuel _).bind fun _ => .refl _
  | pop => exact .refl _

end Lists

end Picore.Task
