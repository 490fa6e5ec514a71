import Mathlib.Data.Finset.Card
import Picore.Queue.Bounded
import Picore.Task.Status

/-!
# A task that serves the pointer queue

`pr_queue_push` passes the consumer task to `pr_task_exec`, which does nothing if the task is
pending. So the task does not run once for each entry. The handler in the documentation of
`queue.h` pops one entry and returns. A handler that goes on until `pr_queue_pop` fails is the
one that the FIFOs are used with.

Any number of contexts push. The handler runs in the context `none` of the scheduler, and it
alone pops. The steps are those of the calls on the pointer queue, and the calls of
`pr_task_exec` act on the queue of tasks. `late` is a ghost variable: the number of entries
whose `pr_task_exec` has found the consumer task pending.

Results:
1. `step_moves`: what a step does.
2. `queue_drained`: with a handler that pops until it fails, no entry stays behind.
3. `queue_stranded`: with a handler that pops once, exactly `late` entries stay behind. When
   they fill the queue, it is stuck for good.
-/

namespace Picore.Queue.Service

open Fuel Transition
open I2c (PrError)
open Picore.Task (Sched Call Sdk Represents Reply prTaskPendingQueuePop)

variable {κ ι α : Type} {size : Nat}

/-! ## 1. The system -/

/-- The two ways to use the queue: the handler of the consumer task returns after one entry, or when
there are no more. -/
inductive Usage
  /-- After one `pr_queue_pop`, as in the documentation of `queue.h`. -/
  | once
  /-- When `pr_queue_pop` fails. -/
  | untilEmpty

/-- The handler goes on after a `pr_queue_pop` that has returned `ret`. -/
def Usage.goesOn (u : Usage) (ret : PrError) : Bool :=
  match u with
  | .once => false
  | .untilEmpty => ret = .ok

/-- The calls on the pointer queue, the queue of tasks, and whether the handler of the
consumer task is running. -/
structure Sys (κ ι α : Type) where
  calls : Queue.Sys (Option κ) ι α
  sched : Sched ι
  running : Bool
  late : Nat

/-- The labels of the steps: calls of `pr_queue_push` in any context with the `pr_task_exec` behind
them, the other calls on the queue of tasks, and the scheduler with the handler, which pops. -/
inductive Act (κ ι α : Type)
  /-- A context calls `pr_queue_push`. -/
  | push (k : κ) (entry : α)
  | pushLocked (k : κ)
  /-- Its `pr_task_exec`, and the end of the call. -/
  | pushed (k : κ) (sdk : Sdk) (fuel : Nat)
  /-- The scheduler takes a task to run. -/
  | run
  /-- The handler calls `pr_queue_pop`. -/
  | pop (slot : α)
  | popLocked
  /-- Its `pr_task_exec`, and the end of the call. -/
  | popped (sdk : Sdk) (fuel : Nat)
  /-- Any other call on the queue of tasks. -/
  | call (sdk : Sdk) (fuel : Nat) (c : Call ι)

variable [DecidableEq κ] [DecidableEq ι]

/-- A step of the calls on the pointer queue. -/
def Sys.calling (s : Sys κ ι α) (a : Queue.Act (Option κ) ι α) : Option (Sys κ ι α) :=
  (Queue.step s.calls a).map fun calls => { s with calls := calls }

/-- `if (!ret) pr_task_exec(task)`. -/
def Sys.execs (s : Sys κ ι α) (sdk : Sdk) (fuel : Nat) (ret : PrError) (task : Option ι) :
    Option (Sys κ ι α) :=
  if ret = .ok then
    ((Call.exec task).run sdk fuel s.sched).toOption.map fun r => { s with sched := r.2 }
  else some s

/-- One step, with the consumer task `w`. -/
def step (u : Usage) (w : ι) (s : Sys κ ι α) : Act κ ι α → Option (Sys κ ι α)
  | .push k x => s.calling (.push (some k) x)
  | .pushLocked k =>
    match s.calls.pc (some k) with
    | .pushing _ => s.calling (.locked (some k))
    | _ => none
  | .pushed k sdk fuel =>
    match s.calls.pc (some k) with
    | .pushed ret => do
      let s' ← s.execs sdk fuel ret s.calls.queue.consumer
      let late := if ret = .ok ∧ (s.sched.tasks w).pending then s.late + 1 else s.late
      { s' with late := late }.calling (.leave (some k))
    | _ => none
  | .run =>
    if s.running then none
    else
      let (task, sched) := prTaskPendingQueuePop s.sched
      some { s with sched := sched, running := task = some w }
  | .pop x => if s.running then s.calling (.pop none x) else none
  | .popLocked =>
    match s.calls.pc none with
    | .popping => s.calling (.locked none)
    | _ => none
  | .popped sdk fuel =>
    match s.calls.pc none with
    | .popped ret => do
      let s' ← s.execs sdk fuel ret s.calls.queue.producer
      { s' with running := u.goesOn ret }.calling (.leave none)
    | _ => none
  | .call _ _ .pop => none
  | .call sdk fuel c => (c.run sdk fuel s.sched).toOption.map fun r => { s with sched := r.2 }

/-- A pointer queue and a queue of tasks that have just been initialised, with the consumer
task `w`. The producer task is another one, if there is one. -/
structure Fresh (handler : ι → Bool) (size : Nat) (w : ι) (s : Sys κ ι α) : Prop where
  queue : ∃ mem producer, producer ≠ some w ∧ s.calls.queue =
    prQueueProducerSet (prQueueConsumerSet (prQueueInit mem size) (some w)) producer
  pc : ∀ k, s.calls.pc k = .idle
  pushed : s.calls.pushed = []
  popped : s.calls.popped = []
  sched : Task.Fresh handler s.sched
  handled : handler w = true
  stopped : s.running = false
  late : s.late = 0

/-- The contexts `κ`, which push, and the consumer task `w`, whose handler pops as `u` says. -/
def service (κ α : Type) [DecidableEq κ] (handler : ι → Bool) (size : Nat) (u : Usage) (w : ι) :
    Lts (Sys κ ι α) (Act κ ι α) :=
  .ofFun (Fresh handler size w) (step u w)

/-- The consumer task is not pending, its handler is not running, and no call is under way. -/
structure Rest (w : ι) (s : Sys κ ι α) : Prop where
  status : s.sched.status w ≠ .pending
  stopped : s.running = false
  pc : ∀ k, s.calls.pc k = .idle

/-! ## 2. The steps -/

/-- What a step does. The calls on the queue of tasks, other than those of the pointer queue
and of the scheduler, meet `P`. -/
inductive Moves (size : Nat) (u : Usage) (w : ι) (P : Call ι → Prop) (s : Sys κ ι α) :
    Sys κ ι α → Prop
  | begins {k : κ} {x : α} : s.calls.pc (some k) = .idle →
      Moves size u w P s { s with calls := s.calls.goes (some k) (.pushing x) }
  | full {k : κ} {x : α} : s.calls.pc (some k) = .pushing x →
      Moves size u w P s { s with calls := s.calls.goes (some k) (.pushed .memory) }
  | stored {k : κ} {x : α} : s.calls.pc (some k) = .pushing x → s.calls.queue.free ≠ 0 →
      Inv size (s.calls.afterPush (some k) x) →
      Moves size u w P s { s with calls := s.calls.afterPush (some k) x }
  | fails {k : κ} {tasks : List (Option ι)} {ret : PrError} :
      s.calls.pc (some k) = .pushed ret → ret ≠ .ok →
      Moves size u w P s
        { s with calls := { s.calls with scheduled := tasks }.goes (some k) .idle }
  | wakes {k : κ} {tasks : List (Option ι)} {sdk : Sdk} {fuel : Nat} {reply : Reply ι}
      {sched : Sched ι} : s.calls.pc (some k) = .pushed .ok →
      (Call.exec s.calls.queue.consumer).run sdk fuel s.sched = .ok (reply, sched) →
      Moves size u w P s
        { s with
          calls := { s.calls with scheduled := tasks }.goes (some k) .idle
          sched := sched
          late := if (s.sched.tasks w).pending then s.late + 1 else s.late }
  | runs : s.running = false →
      Moves size u w P s
        { s with
          sched := (prTaskPendingQueuePop s.sched).2
          running := (prTaskPendingQueuePop s.sched).1 = some w }
  | asks {slot : Option κ → α} : s.running = true → s.calls.pc none = .idle →
      Moves size u w P s { s with calls := { s.calls with slot := slot }.goes none .popping }
  | empty : s.calls.pc none = .popping → s.calls.queue.used = 0 →
      Moves size u w P s { s with calls := s.calls.goes none (.popped .memory) }
  | taken {x : α} : s.calls.pc none = .popping → Inv size (s.calls.afterPop none x) →
      Moves size u w P s { s with calls := s.calls.afterPop none x }
  | returns {tasks : List (Option ι)} {sched : Sched ι} {ret : PrError} :
      s.calls.pc none = .popped ret →
      (sched = s.sched ∨ ∃ sdk fuel reply,
        (Call.exec s.calls.queue.producer).run sdk fuel s.sched = .ok (reply, sched)) →
      Moves size u w P s
        { s with
          calls := { s.calls with scheduled := tasks }.goes none .idle
          sched := sched
          running := u.goesOn ret }
  | calls {c : Call ι} {sdk : Sdk} {fuel : Nat} {reply : Reply ι} {sched : Sched ι} :
      P c → c ≠ .pop → c.run sdk fuel s.sched = .ok (reply, sched) →
      Moves size u w P s { s with sched := sched }

omit [DecidableEq κ] in
theorem execs_eq {s t : Sys κ ι α} {sdk : Sdk} {fuel : Nat} {ret : PrError} {task : Option ι}
    (h : s.execs sdk fuel ret task = some t) :
    ret ≠ .ok ∧ t = s ∨ ret = .ok ∧ ∃ reply sched,
      (Call.exec task).run sdk fuel s.sched = .ok (reply, sched) ∧
        t = { s with sched := sched } := by
  unfold Sys.execs at h
  split at h
  · next hret =>
    obtain ⟨⟨reply, sched⟩, hrun, rfl⟩ := Option.map_eq_some_iff.mp h
    exact .inr ⟨hret, reply, sched, toOption_eq_some.mp hrun, rfl⟩
  · next hret => exact .inl ⟨hret, (Option.some.inj h).symm⟩

theorem step_moves {u : Usage} {w : ι} {P : Call ι → Prop} {s t : Sys κ ι α} {a : Act κ ι α}
    (hinv : Inv size s.calls) (hP : ∀ sdk fuel c, a = .call sdk fuel c → P c)
    (hs : step u w s a = some t) : Moves size u w P s t := by
  cases a with
  | push k x =>
    obtain ⟨calls, hcalls, rfl⟩ := Option.map_eq_some_iff.mp hs
    simp only [Queue.step] at hcalls
    split at hcalls
    · next hpc =>
      cases hcalls
      exact .begins hpc
    · cases hcalls
  | pushLocked k =>
    simp only [step] at hs
    split at hs
    · next x hpc =>
      obtain ⟨calls, hcalls, rfl⟩ := Option.map_eq_some_iff.mp hs
      simp only [Queue.step, hpc] at hcalls
      rcases locked_push hinv (some k) x with ⟨-, heq⟩ | ⟨hfree, heq, hnext⟩
      · rw [heq] at hcalls
        cases hcalls
        exact .full hpc
      · rw [heq] at hcalls
        cases hcalls
        exact .stored hpc hfree hnext
    · cases hs
  | pushed k sdk fuel =>
    simp only [step] at hs
    split at hs
    · next ret hpc =>
      obtain ⟨s', hexec, hs⟩ := Option.bind_eq_some_iff.mp hs
      obtain ⟨calls, hcalls, rfl⟩ := Option.map_eq_some_iff.mp hs
      rcases execs_eq hexec with ⟨hret, rfl⟩ | ⟨rfl, reply, sched, hrun, rfl⟩
      · simp only [Queue.step, hpc, Sys.leave, Option.some.injEq] at hcalls
        subst hcalls
        simp only [hret, false_and, if_false]
        exact .fails hpc hret
      · simp only [Queue.step, hpc, Sys.leave, Option.some.injEq] at hcalls
        subst hcalls
        simp only [true_and]
        exact .wakes hpc hrun
    · cases hs
  | run =>
    simp only [step] at hs
    split at hs
    · cases hs
    · next hstopped =>
      cases hs
      exact .runs (Bool.eq_false_iff.mpr hstopped)
  | pop x =>
    simp only [step] at hs
    split at hs
    · next hrunning =>
      obtain ⟨calls, hcalls, rfl⟩ := Option.map_eq_some_iff.mp hs
      simp only [Queue.step] at hcalls
      split at hcalls
      · next hpc =>
        cases hcalls
        exact .asks hrunning hpc
      · cases hcalls
    · cases hs
  | popLocked =>
    simp only [step] at hs
    split at hs
    · next hpc =>
      obtain ⟨calls, hcalls, rfl⟩ := Option.map_eq_some_iff.mp hs
      simp only [Queue.step, hpc] at hcalls
      rcases locked_pop hinv none with ⟨hused, heq⟩ | ⟨x, -, heq, hnext⟩
      · rw [heq] at hcalls
        cases hcalls
        exact .empty hpc hused
      · rw [heq] at hcalls
        cases hcalls
        exact .taken hpc hnext
    · cases hs
  | popped sdk fuel =>
    simp only [step] at hs
    split at hs
    · next ret hpc =>
      obtain ⟨s', hexec, hs⟩ := Option.bind_eq_some_iff.mp hs
      obtain ⟨calls, hcalls, rfl⟩ := Option.map_eq_some_iff.mp hs
      rcases execs_eq hexec with ⟨-, rfl⟩ | ⟨-, reply, sched, hrun, rfl⟩
      · simp only [Queue.step, hpc, Sys.leave, Option.some.injEq] at hcalls
        subst hcalls
        exact .returns hpc (.inl rfl)
      · simp only [Queue.step, hpc, Sys.leave, Option.some.injEq] at hcalls
        subst hcalls
        exact .returns hpc (.inr ⟨sdk, fuel, reply, hrun⟩)
    · cases hs
  | call sdk fuel c =>
    have hc : P c := hP sdk fuel c rfl
    have hcall : c ≠ .pop ∧
        (c.run sdk fuel s.sched).toOption.map (fun r => { s with sched := r.2 }) = some t := by
      cases c with
      | pop => cases hs
      | exec | execInUs | execInMs | alarm => exact ⟨(fun h1 => by cases h1), hs⟩
    obtain ⟨hne, hs⟩ := hcall
    obtain ⟨⟨reply, sched⟩, hrun, rfl⟩ := Option.map_eq_some_iff.mp hs
    exact .calls hc hne (toOption_eq_some.mp hrun)

/-! ## 3. The queue of tasks -/

section Tasks

variable {handler : ι → Bool} {w : ι} {s s' : Sched ι}

omit [DecidableEq κ] [DecidableEq ι] in
theorem status_pending : s.status w = .pending ↔ (s.tasks w).pending = true := by
  unfold Sched.status
  split
  · next h => exact iff_of_true rfl h
  · next h =>
    refine iff_of_false ?_ h
    split <;> decide

omit [DecidableEq κ] in
/-- The queue of tasks still holds a schedule. Only the scheduler takes a pending task out
of it. -/
theorem runs_spec (hq : ∃ a, Represents handler s a) {sdk : Sdk} {fuel : Nat} {c : Call ι}
    {reply : Reply ι} (hrun : c.run sdk fuel s = .ok (reply, s')) :
    (∃ a, Represents handler s' a) ∧
      Task.Effect handler w (s.status w) c reply (s'.status w) ∧
      (c ≠ .pop → s.status w = .pending → s'.status w = .pending) := by
  obtain ⟨a, ha⟩ := hq
  have heffect := Task.call_status ha ⟨fuel, hrun⟩ w
  obtain ⟨-, ha'⟩ := Task.call_of_represents ha ⟨fuel, hrun⟩
  refine ⟨⟨_, ha'⟩, heffect, fun hc hpending => ?_⟩
  have hmem : w ∈ a.pending := (ha.pending_flag w).mp (status_pending.mp hpending)
  exact status_pending.mpr ((ha'.pending_flag w).mpr (Task.mem_pending_call sdk hc hmem))

omit [DecidableEq κ] in
theorem exec_pending (hq : ∃ a, Represents handler s a) (hw : handler w = true) {sdk : Sdk}
    {fuel : Nat} {reply : Reply ι}
    (hrun : (Call.exec (some w)).run sdk fuel s = .ok (reply, s')) : s'.status w = .pending := by
  obtain ⟨-, heffect, -⟩ := runs_spec (w := w) hq hrun
  generalize s'.status w = st at heffect
  cases heffect with
  | exec _ => rfl
  | other hne => exact absurd rfl (hne hw)

/-- The call does not ask for the task `w`, so that only the queue schedules it. -/
def Untouched (w : ι) : Call ι → Prop
  | .exec task => task ≠ some w
  | .execInUs t _ => t ≠ w
  | .execInMs t _ => t ≠ w
  | _ => True

instance : DecidablePred (Untouched w) := fun c =>
  match c with
  | .exec task => inferInstanceAs (Decidable (task ≠ some w))
  | .execInUs t _ => inferInstanceAs (Decidable (t ≠ w))
  | .execInMs t _ => inferInstanceAs (Decidable (t ≠ w))
  | .alarm _ => inferInstanceAs (Decidable True)
  | .pop => inferInstanceAs (Decidable True)

omit [DecidableEq κ] in
/-- A task that does not wait keeps its place when the calls are not on it. -/
theorem untouched_status (hq : ∃ a, Represents handler s a) (hw : s.status w ≠ .waiting)
    {sdk : Sdk} {fuel : Nat} {c : Call ι} {reply : Reply ι} (hc : Untouched w c) (hpop : c ≠ .pop)
    (hrun : c.run sdk fuel s = .ok (reply, s')) : s'.status w = s.status w := by
  obtain ⟨-, heffect, -⟩ := runs_spec (w := w) hq hrun
  generalize s'.status w = st' at heffect
  generalize s.status w = st at heffect hw
  cases heffect with
  | exec _ => exact absurd rfl hc
  | execInUs => exact absurd rfl hc
  | execInMs => exact absurd rfl hc
  | expire =>
    cases st with
    | waiting => exact absurd rfl hw
    | idle | pending => rfl
  | run _ => exact absurd rfl hpop
  | other => rfl

omit [DecidableEq κ] in
theorem pop_spec (hq : ∃ a, Represents handler s a) :
    (∃ a, Represents handler (prTaskPendingQueuePop s).2 a) ∧
      ((prTaskPendingQueuePop s).1 = some w →
        s.status w = .pending ∧ (prTaskPendingQueuePop s).2.status w = .idle) ∧
      ((prTaskPendingQueuePop s).1 ≠ some w →
        (prTaskPendingQueuePop s).2.status w = s.status w) := by
  obtain ⟨a, ha⟩ := hq
  obtain ⟨hhead, ha', -⟩ := Task.prTaskPendingQueuePop_represents ha
  refine ⟨⟨_, ha'⟩, fun htask => ⟨?_, ?_⟩, fun htask => ?_⟩
  · rw [hhead] at htask
    exact status_pending.mpr ((ha.pending_flag w).mpr (List.mem_of_head? htask))
  · rw [hhead] at htask
    rw [Task.status_eq ha', Task.status_pop, if_pos htask]
  · rw [hhead] at htask
    rw [Task.status_eq ha', Task.status_pop, if_neg htask, Task.status_eq ha]

end Tasks

/-! ## 4. The invariants -/

/-- Both queues are as the locked sections leave them, the pointer queue with the task `w` as its
consumer, and the context of the scheduler is in no call while the handler does not run. -/
structure Sound (handler : ι → Bool) (size : Nat) (w : ι) (s : Sys κ ι α) : Prop where
  calls : Inv size s.calls
  consumer : s.calls.queue.consumer = some w
  producer : s.calls.queue.producer ≠ some w
  queue : ∃ a, Represents handler s.sched a
  handled : handler w = true
  stopped : s.running = false → s.calls.pc none = .idle

omit [DecidableEq κ] [DecidableEq ι] in
theorem Sound.running {handler : ι → Bool} {w : ι} {s : Sys κ ι α} (h : Sound handler size w s)
    (hpc : s.calls.pc none ≠ .idle) : s.running = true :=
  Bool.of_not_eq_false fun hstopped => hpc (h.stopped hstopped)

section Invariants

variable {handler : ι → Bool} {u : Usage} {w : ι} {P : Call ι → Prop} {s t : Sys κ ι α}

omit [DecidableEq κ] [DecidableEq ι] in
theorem fresh_sound (h : Fresh handler size w s) : Sound handler size w s := by
  obtain ⟨mem, producer, hne, hq⟩ := h.queue
  have hstores := stores_init (τ := ι) mem size
  refine ⟨⟨?_, ?_⟩, ?_, ?_, ⟨_, h.sched.represents⟩, h.handled, fun _ => h.pc none⟩
  · rw [hq, h.pushed, h.popped]
    exact ⟨hstores.1, hstores.2, hstores.3, hstores.4, hstores.5, hstores.6⟩
  · rw [h.popped]
    exact List.nil_prefix
  · rw [hq]
    rfl
  · rw [hq]
    exact hne

omit [DecidableEq κ] [DecidableEq ι] in
theorem pushLocked_tasks (q : PrQueue ι α) (x : α) :
    (pushLocked q x).2.consumer = q.consumer ∧ (pushLocked q x).2.producer = q.producer := by
  unfold pushLocked
  split
  · exact ⟨rfl, rfl⟩
  · exact ⟨rfl, rfl⟩

omit [DecidableEq κ] [DecidableEq ι] in
theorem popLocked_tasks (q : PrQueue ι α) (x : α) :
    (popLocked q x).2.2.consumer = q.consumer ∧ (popLocked q x).2.2.producer = q.producer := by
  unfold popLocked
  split
  · exact ⟨rfl, rfl⟩
  · exact ⟨rfl, rfl⟩

omit [DecidableEq ι] in
theorem goes_self {calls : Queue.Sys (Option κ) ι α} (k : Option κ) (pc : Pc α) :
    (calls.goes k pc).pc k = pc :=
  Function.update_self ..

omit [DecidableEq ι] in
theorem goes_other {calls : Queue.Sys (Option κ) ι α} {k k' : Option κ} (h : k' ≠ k) (pc : Pc α) :
    (calls.goes k pc).pc k' = calls.pc k' :=
  Function.update_of_ne h ..

theorem moves_sound (h : Sound handler size w s) (hm : Moves size u w P s t) :
    Sound handler size w t := by
  have hcalls : ∀ calls : Queue.Sys (Option κ) ι α, calls.queue = s.calls.queue →
      calls.pushed = s.calls.pushed → calls.popped = s.calls.popped → Inv size calls := by
    intro calls h1 h2 h3
    refine ⟨?_, ?_⟩
    · rw [h1, h2, h3]
      exact h.calls.stores
    · rw [h2, h3]
      exact h.calls.order
  have hother : ∀ (calls : Queue.Sys (Option κ) ι α) (k : κ) (pc : Pc α),
      calls.pc = s.calls.pc → s.running = false → (calls.goes (some k) pc).pc none = .idle := by
    intro calls k pc hpc hrun
    rw [goes_other (Option.some_ne_none k).symm, hpc]
    exact h.stopped hrun
  cases hm with
  | begins hpc =>
    exact ⟨hcalls _ rfl rfl rfl, h.consumer, h.producer, h.queue, h.handled, hother _ _ _ rfl⟩
  | full hpc =>
    exact ⟨hcalls _ rfl rfl rfl, h.consumer, h.producer, h.queue, h.handled, hother _ _ _ rfl⟩
  | @stored k _ hpc hfree hnext =>
    have htasks := pushLocked_tasks s.calls.queue
    exact ⟨hnext, (htasks _).1.trans h.consumer, (htasks _).2.symm ▸ h.producer, h.queue,
      h.handled, hother _ k (.pushed .ok) rfl⟩
  | fails hpc hret =>
    exact ⟨hcalls _ rfl rfl rfl, h.consumer, h.producer, h.queue, h.handled, hother _ _ _ rfl⟩
  | wakes hpc hrun =>
    exact ⟨hcalls _ rfl rfl rfl, h.consumer, h.producer, (runs_spec (w := w) h.queue hrun).1,
      h.handled, hother _ _ _ rfl⟩
  | runs hstopped =>
    exact ⟨h.calls, h.consumer, h.producer, (pop_spec (w := w) h.queue).1, h.handled,
      fun _ => h.stopped hstopped⟩
  | asks hrunning hpc =>
    refine ⟨hcalls _ rfl rfl rfl, h.consumer, h.producer, h.queue, h.handled, fun hstop => ?_⟩
    rw [hrunning] at hstop
    cases hstop
  | empty hpc hused =>
    refine ⟨hcalls _ rfl rfl rfl, h.consumer, h.producer, h.queue, h.handled, fun hstop => ?_⟩
    rw [h.stopped hstop] at hpc
    cases hpc
  | taken hpc hnext =>
    have htasks := popLocked_tasks s.calls.queue
    refine ⟨hnext, (htasks _).1.trans h.consumer, (htasks _).2.symm ▸ h.producer, h.queue,
      h.handled, fun hstop => ?_⟩
    rw [h.stopped hstop] at hpc
    cases hpc
  | returns hpc hsched =>
    refine ⟨hcalls _ rfl rfl rfl, h.consumer, h.producer, ?_, h.handled,
      fun _ => goes_self none .idle⟩
    rcases hsched with rfl | ⟨sdk, fuel, reply, hrun⟩
    · exact h.queue
    · exact (runs_spec (w := w) h.queue hrun).1
  | calls _ _ hrun =>
    exact ⟨h.calls, h.consumer, h.producer, (runs_spec (w := w) h.queue hrun).1, h.handled,
      h.stopped⟩

/-! ### No entry stays behind -/

/-- The handler is going to pop: the task is pending, the handler has not seen the end yet,
or a context is about to pass the task to `pr_task_exec`. -/
def Awake (w : ι) (s : Sys κ ι α) : Prop :=
  s.sched.status w = .pending ∨
    s.running = true ∧ (∀ ret, s.calls.pc none = .popped ret → ret = .ok) ∨
    ∃ k, s.calls.pc (some k) = .pushed .ok

/-- There are entries only while the handler is going to pop. -/
def Served (w : ι) (s : Sys κ ι α) : Prop := s.calls.queue.used ≠ 0 → Awake w s

omit [DecidableEq κ] [DecidableEq ι] in
/-- The task stays awake as long as its status, its handler and the contexts about to wake it
stay. -/
theorem Awake.keep (h : Awake w s)
    (hpending : s.sched.status w = .pending → t.sched.status w = .pending)
    (hrunning : s.running = true → (∀ ret, s.calls.pc none = .popped ret → ret = .ok) →
      t.running = true ∧ ∀ ret, t.calls.pc none = .popped ret → ret = .ok)
    (hpushed : ∀ k, s.calls.pc (some k) = .pushed .ok → t.calls.pc (some k) = .pushed .ok) :
    Awake w t := by
  rcases h with h1 | ⟨h1, h2⟩ | ⟨k, hk⟩
  · exact .inl (hpending h1)
  · exact .inr (.inl (hrunning h1 h2))
  · exact .inr (.inr ⟨k, hpushed k hk⟩)

omit [DecidableEq ι] in
/-- The step of a context other than those about to wake the task. -/
theorem Awake.goes_some (h : Awake w s) {k : κ} (hk : s.calls.pc (some k) ≠ .pushed .ok)
    {tasks : List (Option ι)} (pc : Pc α) :
    Awake w { s with calls := { s.calls with scheduled := tasks }.goes (some k) pc } := by
  refine h.keep (fun h1 => h1) (fun h1 h2 => ⟨h1, fun ret hret => h2 ret ?_⟩) fun k' hk' => ?_
  · rwa [goes_other (Option.some_ne_none k).symm] at hret
  · have hne : some k' ≠ some k := by
      intro heq
      rw [heq] at hk'
      exact hk hk'
    rw [goes_other hne]
    exact hk'

theorem moves_served (hsound : Sound handler size w s) (h : Served w s)
    (hm : Moves size .untilEmpty w P s t) : Served w t := by
  intro hused
  cases hm with
  | begins hpc => exact (h hused).goes_some (by rw [hpc]; exact nofun) _
  | full hpc => exact (h hused).goes_some (by rw [hpc]; exact nofun) _
  | @stored k x hpc hfree hnext => exact .inr (.inr ⟨k, goes_self ..⟩)
  | fails hpc hret =>
    refine (h hused).goes_some ?_ _
    rw [hpc]
    intro heq
    cases heq
    exact hret rfl
  | wakes hpc hrun =>
    rw [hsound.consumer] at hrun
    exact .inl (exec_pending hsound.queue hsound.handled hrun)
  | runs hstopped =>
    obtain ⟨-, htask, hother⟩ := pop_spec (w := w) hsound.queue
    by_cases hw : (prTaskPendingQueuePop s.sched).1 = some w
    · refine .inr (.inl ⟨decide_eq_true hw, fun ret hret => ?_⟩)
      have hret : s.calls.pc none = .popped ret := hret
      rw [hsound.stopped hstopped] at hret
      cases hret
    · refine (h hused).keep (fun h1 => (hother hw).trans h1) (fun h1 => ?_) fun _ h1 => h1
      rw [hstopped] at h1
      cases h1
  | asks hrunning hpc =>
    refine .inr (.inl ⟨hrunning, fun ret hret => ?_⟩)
    rw [goes_self] at hret
    cases hret
  | empty hpc hempty => exact absurd hempty hused
  | taken hpc hnext =>
    refine .inr (.inl ⟨?_, fun ret hret => ?_⟩)
    · exact hsound.running (by simp [hpc])
    · have hret : (s.calls.goes none (.popped .ok)).pc none = .popped ret := hret
      rw [goes_self] at hret
      cases hret
      rfl
  | @returns tasks sched ret hpc hsched =>
    have hpending : s.sched.status w = .pending → sched.status w = .pending := by
      rcases hsched with rfl | ⟨sdk, fuel, reply, hrun⟩
      · exact fun h1 => h1
      · exact (runs_spec hsound.queue hrun).2.2 nofun
    refine (h hused).keep hpending (fun _ h2 => ⟨?_, fun ret' hret' => ?_⟩) fun k hk => ?_
    · rw [h2 ret hpc]
      rfl
    · rw [goes_self] at hret'
      cases hret'
    · rw [goes_other (Option.some_ne_none k)]
      exact hk
  | calls _ hne hrun =>
    exact (h hused).keep ((runs_spec hsound.queue hrun).2.2 hne) And.intro fun _ h1 => h1

/-! ### The entries that stay behind -/

/-- The entry that the handler is going to pop, from where it stands. -/
def ahead (running : Bool) (pc : Pc α) : Nat :=
  match running, pc with
  | true, .idle => 1
  | true, .popping => 1
  | _, _ => 0

/-- Whether the consumer task is pending, as a number: how many more times the scheduler is going to
run it. -/
def Sys.asked (s : Sys κ ι α) (w : ι) : Nat := if s.sched.status w = .pending then 1 else 0

/-- `owing` are the contexts about to pass the task to `pr_task_exec`. Each entry in the queue
is one of theirs, or the one that the handler is going to pop, or a late one. -/
structure Counted (size : Nat) (w : ι) (s : Sys κ ι α) (owing : Finset κ) : Prop where
  owes : ∀ k, k ∈ owing ↔ s.calls.pc (some k) = .pushed .ok
  settled : s.sched.status w ≠ .waiting
  count : s.calls.queue.used = s.late + owing.card + s.asked w + ahead s.running (s.calls.pc none)
  room : s.late = 0 ∨ s.late < size

omit [DecidableEq ι] in
/-- A context that was not about to pass the task to `pr_task_exec` goes on, and is not so
then. -/
theorem Counted.goes_some {owing : Finset κ} (h : Counted size w s owing) {k : κ} {pc0 : Pc α}
    (hk : s.calls.pc (some k) = pc0) (hpc0 : pc0 ≠ .pushed .ok) {pc : Pc α}
    (hpc : pc ≠ .pushed .ok) {tasks : List (Option ι)} :
    Counted size w { s with calls := { s.calls with scheduled := tasks }.goes (some k) pc }
      owing := by
  refine ⟨fun k' => ?_, h.settled, ?_, h.room⟩
  · by_cases heq : k' = k
    · rw [heq, goes_self]
      exact iff_of_false (fun h1 => hpc0 (hk.symm.trans ((h.owes k).mp h1))) hpc
    · rw [goes_other (fun h1 => heq (Option.some.inj h1))]
      exact h.owes k'
  · rw [goes_other (Option.some_ne_none k).symm]
    exact h.count

omit [DecidableEq ι] in
/-- The entry of a context that is behind the locked section. -/
theorem stored_counted (hsound : Sound handler size w s) {owing : Finset κ}
    (h : Counted size w s owing) {k : κ} {x : α} (hpc : s.calls.pc (some k) = .pushing x)
    (hnext : Inv size (s.calls.afterPush (some k) x)) :
    Counted size w { s with calls := s.calls.afterPush (some k) x } (insert k owing) := by
  have hnew : k ∉ owing := by
    rw [h.owes, hpc]
    exact nofun
  refine ⟨fun k' => ?_, h.settled, ?_, h.room⟩
  · rw [Finset.mem_insert]
    by_cases heq : k' = k
    · rw [heq]
      exact iff_of_true (.inl rfl) (goes_self ..)
    · have hsame : (s.calls.afterPush (some k) x).pc (some k') = s.calls.pc (some k') :=
        goes_other (fun h1 => heq (Option.some.inj h1)) _
      rw [hsame]
      exact (or_iff_right heq).trans (h.owes k')
  · have hahead : (s.calls.afterPush (some k) x).pc none = s.calls.pc none :=
      goes_other (Option.some_ne_none k).symm _
    have hcount := h.count
    have hold := hsound.calls.stores.length
    have hlen : (s.calls.pushed ++ [x]).length =
        s.calls.popped.length + (s.calls.afterPush (some k) x).queue.used := hnext.stores.length
    rw [List.length_append, List.length_singleton] at hlen
    show (s.calls.afterPush (some k) x).queue.used = s.late + (insert k owing).card + s.asked w +
      ahead s.running ((s.calls.afterPush (some k) x).pc none)
    rw [Finset.card_insert_of_notMem hnew, hahead]
    omega

omit [DecidableEq ι] in
/-- The entry of a context that passes the task to `pr_task_exec` is late if the task was
pending, and makes the task pending otherwise. -/
theorem wakes_counted (hsound : Sound handler size w s) {owing : Finset κ}
    (h : Counted size w s owing) {k : κ} (hpc : s.calls.pc (some k) = .pushed .ok)
    {tasks : List (Option ι)} {sched : Sched ι} (hpending : sched.status w = .pending) :
    Counted size w
      { s with
        calls := { s.calls with scheduled := tasks }.goes (some k) .idle
        sched := sched
        late := if (s.sched.tasks w).pending then s.late + 1 else s.late } (owing.erase k) := by
  have hcard := Finset.card_erase_add_one ((h.owes k).mpr hpc)
  have hcount := h.count
  rw [Sys.asked] at hcount
  simp only [status_pending] at hcount
  refine ⟨fun k' => ?_, ?_, ?_, ?_⟩
  · rw [Finset.mem_erase]
    by_cases heq : k' = k
    · rw [heq, goes_self]
      exact iff_of_false (fun h1 => h1.1 rfl) nofun
    · rw [goes_other (fun h1 => heq (Option.some.inj h1))]
      exact (and_iff_right heq).trans (h.owes k')
  · show sched.status w ≠ .waiting
    rw [hpending]
    exact nofun
  · rw [goes_other (Option.some_ne_none k).symm, Sys.asked, if_pos hpending]
    show s.calls.queue.used = (if (s.sched.tasks w).pending then s.late + 1 else s.late) +
      (owing.erase k).card + 1 + ahead s.running (s.calls.pc none)
    split
    · next h1 =>
      rw [if_pos h1] at hcount
      omega
    · next h1 =>
      rw [if_neg h1] at hcount
      omega
  · have htotal := hsound.calls.stores.total
    show (if (s.sched.tasks w).pending then s.late + 1 else s.late) = 0 ∨
      (if (s.sched.tasks w).pending then s.late + 1 else s.late) < size
    split
    · next h1 =>
      -- The entry of the pending task and that of the context are in the queue.
      rw [if_pos h1] at hcount
      omega
    · exact h.room

omit [DecidableEq ι] in
theorem Counted.goes_none {owing : Finset κ} (h : Counted size w s owing) {pc : Pc α}
    (hpc : t.calls.pc = Function.update s.calls.pc none pc)
    (hstatus : t.sched.status w = s.sched.status w) (hlate : t.late = s.late)
    (hused : t.calls.queue.used + ahead s.running (s.calls.pc none) =
      s.calls.queue.used + ahead t.running (t.calls.pc none)) : Counted size w t owing := by
  refine ⟨fun k => ?_, ?_, ?_, hlate ▸ h.room⟩
  · rw [hpc, Function.update_of_ne (Option.some_ne_none k)]
    exact h.owes k
  · rw [hstatus]
    exact h.settled
  · have hcount := h.count
    have hasked : t.asked w = s.asked w := by rw [Sys.asked, hstatus, Sys.asked]
    rw [hasked, hlate]
    omega

omit [DecidableEq κ] in
theorem runs_counted (hsound : Sound handler size w s) {owing : Finset κ}
    (h : Counted size w s owing) (hstopped : s.running = false) :
    Counted size w
      { s with
        sched := (prTaskPendingQueuePop s.sched).2
        running := (prTaskPendingQueuePop s.sched).1 = some w } owing := by
  obtain ⟨-, htask, hother⟩ := pop_spec (w := w) hsound.queue
  have hcount := h.count
  have hidle := hsound.stopped hstopped
  by_cases hw : (prTaskPendingQueuePop s.sched).1 = some w
  · obtain ⟨hbefore, hafter⟩ := htask hw
    refine ⟨h.owes, ?_, ?_, h.room⟩
    · show (prTaskPendingQueuePop s.sched).2.status w ≠ .waiting
      rw [hafter]
      exact nofun
    · rw [hstopped, hidle, Sys.asked, if_pos hbefore] at hcount
      simp only [Sys.asked, hafter, hw, hidle]
      exact hcount
  · refine ⟨h.owes, ?_, ?_, h.room⟩
    · show (prTaskPendingQueuePop s.sched).2.status w ≠ .waiting
      rw [hother hw]
      exact h.settled
    · rw [hstopped, hidle, Sys.asked] at hcount
      simp only [Sys.asked, hother hw, hw, hidle]
      exact hcount

theorem moves_counted (hsound : Sound handler size w s) {owing : Finset κ}
    (h : Counted size w s owing) (hm : Moves size .once w (Untouched w) s t) :
    ∃ owing, Counted size w t owing := by
  cases hm with
  | begins hpc => exact ⟨owing, h.goes_some hpc nofun (by exact nofun)⟩
  | full hpc => exact ⟨owing, h.goes_some hpc nofun (by simp)⟩
  | stored hpc _ hnext => exact ⟨_, stored_counted hsound h hpc hnext⟩
  | fails hpc hret => exact ⟨owing, h.goes_some hpc (by simpa using hret) (by exact nofun)⟩
  | wakes hpc hrun =>
    rw [hsound.consumer] at hrun
    exact ⟨_, wakes_counted hsound h hpc (exec_pending hsound.queue hsound.handled hrun)⟩
  | runs hstopped => exact ⟨owing, runs_counted hsound h hstopped⟩
  | asks hrunning hpc =>
    refine ⟨owing, h.goes_none rfl rfl rfl ?_⟩
    rw [goes_self, hpc, hrunning]
    rfl
  | empty hpc hempty =>
    -- The entry that the handler is going to pop is in the queue.
    have hcount := h.count
    rw [hpc, hsound.running (by simp [hpc]), hempty] at hcount
    exact absurd hcount (Nat.succ_ne_zero _).symm
  | @taken x hpc hnext =>
    refine ⟨owing, h.goes_none rfl rfl rfl ?_⟩
    have hold := hsound.calls.stores.length
    have hlen : s.calls.pushed.length = (s.calls.popped ++ [x]).length +
        (s.calls.afterPop none x).queue.used := hnext.stores.length
    have hpc' : (s.calls.afterPop none x).pc none = .popped .ok := goes_self ..
    rw [List.length_append, List.length_singleton] at hlen
    rw [hpc, hsound.running (by simp [hpc]), hpc']
    show (s.calls.afterPop none x).queue.used + 1 = s.calls.queue.used + 0
    omega
  | returns hpc hsched =>
    refine ⟨owing, h.goes_none rfl ?_ rfl ?_⟩
    · rcases hsched with rfl | ⟨sdk, fuel, reply, hrun⟩
      · rfl
      · have hc : Untouched w (.exec s.calls.queue.producer) := hsound.producer
        exact untouched_status hsound.queue h.settled hc nofun hrun
    · rw [goes_self, hpc]
      cases s.running with
      | true => rfl
      | false => rfl
  | calls hc hne hrun =>
    have hstatus := untouched_status hsound.queue h.settled hc hne hrun
    refine ⟨owing, h.owes, ?_, ?_, h.room⟩
    · exact fun heq => h.settled (hstatus.symm.trans heq)
    · rw [Sys.asked, hstatus]
      exact h.count

/-! ## 5. Main results -/

/-- The other calls on the queue of tasks are not on the consumer task. -/
def Act.Spares (w : ι) : Act κ ι α → Prop
  | .call _ _ c => Untouched w c
  | _ => True

instance : DecidablePred (Act.Spares w : Act κ ι α → Prop) := fun a =>
  match a with
  | .call _ _ c => inferInstanceAs (Decidable (Untouched w c))
  | .push _ _ | .pushLocked _ | .pushed _ _ _ | .run | .pop _ | .popLocked | .popped _ _ =>
    inferInstanceAs (Decidable True)

theorem served_sound (h : (service κ α handler size .untilEmpty w).Reachable s) :
    Sound handler size w s ∧ Served w s := by
  refine h.invariant (I := fun s => Sound handler size w s ∧ Served w s) ?_ ?_
  · intro s hs
    obtain ⟨mem, producer, -, hq⟩ := hs.queue
    refine ⟨fresh_sound hs, fun hused => absurd ?_ hused⟩
    rw [hq]
    rfl
  · rintro s a t ⟨hsound, hserved⟩ hstep
    have hm := step_moves (P := fun _ => True) hsound.calls (fun _ _ _ _ => trivial) hstep
    exact ⟨moves_sound hsound hm, moves_served hsound hserved hm⟩

/-- Whatever the contexts do, a consumer task whose handler pops until the queue is empty gets
all entries, in order: when nothing is under way, every entry that was pushed has been
popped. -/
theorem queue_drained (κ α : Type) [DecidableEq κ] (handler : ι → Bool) (size : Nat) (w : ι)
    {s : Sys κ ι α} (h : (service κ α handler size .untilEmpty w).Reachable s) :
    s.calls.popped <+: s.calls.pushed ∧ (Rest w s → s.calls.popped = s.calls.pushed) := by
  obtain ⟨hsound, hserved⟩ := served_sound h
  refine ⟨hsound.calls.order, fun hrest => hsound.calls.order.eq_of_length ?_⟩
  have hused : s.calls.queue.used = 0 := by
    refine Classical.byContradiction fun hused => ?_
    rcases hserved hused with h1 | ⟨h1, -⟩ | ⟨k, hk⟩
    · exact hrest.status h1
    · rw [hrest.stopped] at h1
      cases h1
    · rw [hrest.pc] at hk
      cases hk
  have hlen := hsound.calls.stores.length
  rw [hused] at hlen
  exact hlen.symm

theorem spares_moves (hsound : Sound handler size w s) {a : Act κ ι α}
    (hs : ((service κ α handler size u w).guard fun _ a => a.Spares w).step s a t) :
    Moves size u w (Untouched w) s t := by
  refine step_moves hsound.calls ?_ hs.1
  rintro sdk fuel c rfl
  exact hs.2

theorem counted_sound
    (h : ((service κ α handler size .once w).guard fun _ a => a.Spares w).Reachable s) :
    Sound handler size w s ∧ ∃ owing, Counted size w s owing := by
  refine h.invariant (I := fun s => Sound handler size w s ∧ ∃ owing, Counted size w s owing) ?_ ?_
  · intro s hs
    obtain ⟨mem, producer, -, hq⟩ := hs.queue
    have hstatus : s.sched.status w = .idle := by
      rw [Sched.status, hs.sched.tasks]
      rfl
    refine ⟨fresh_sound hs, ∅, fun k => ?_, ?_, ?_, .inl hs.late⟩
    · rw [hs.pc]
      exact iff_of_false (Finset.notMem_empty k) (by simp)
    · rw [hstatus]
      decide
    · rw [hq, hs.late, hs.stopped, hs.pc, Sys.asked, hstatus]
      rfl
  · rintro s a t ⟨hsound, owing, hcounted⟩ hstep
    have hm := spares_moves hsound hstep
    exact ⟨moves_sound hsound hm, moves_counted hsound hcounted hm⟩

theorem moves_late (hm : Moves size u w P s t) : s.late ≤ t.late := by
  cases hm with
  | wakes =>
    show s.late ≤ if (s.sched.tasks w).pending then s.late + 1 else s.late
    split
    · exact Nat.le_succ _
    · exact Nat.le_refl _
  | begins | full | stored | fails | runs | asks | empty | taken | returns | calls =>
    exact Nat.le_refl _

/-- With the handler in the documentation of `queue.h`, which pops one entry, one entry stays
behind for each `pr_task_exec` that has found the consumer task pending: when nothing is
under way, the last `late` entries that were pushed are still in the queue. This is never made
up for: from then on there are always at least as many entries in the queue. It can take all
cells but one. -/
theorem queue_stranded (κ α : Type) [DecidableEq κ] (handler : ι → Bool) (size : Nat) (w : ι)
    {s : Sys κ ι α}
    (h : ((service κ α handler size .once w).guard fun _ a => a.Spares w).Reachable s) :
    (Rest w s → ∃ rest, s.calls.pushed = s.calls.popped ++ rest ∧ rest.length = s.late) ∧
    (s.late = 0 ∨ s.late < size) ∧
    ∀ t, (((service κ α handler size .once w).guard fun _ a => a.Spares w).after s).Reachable t →
      s.late ≤ t.calls.queue.used := by
  obtain ⟨hsound, owing, hcounted⟩ := counted_sound h
  refine ⟨fun hrest => ?_, hcounted.room, fun t ht => ?_⟩
  · obtain ⟨rest, hprefix⟩ := hsound.calls.order
    have howing : owing = ∅ := by
      refine Finset.eq_empty_of_forall_notMem fun k hk => ?_
      have hpc := (hcounted.owes k).mp hk
      rw [hrest.pc] at hpc
      cases hpc
    have hused : s.calls.queue.used = s.late := by
      rw [hcounted.count, howing, Sys.asked, if_neg hrest.status, hrest.stopped, hrest.pc]
      rfl
    have hlen := hsound.calls.stores.length
    rw [← hprefix, List.length_append, hused] at hlen
    exact ⟨rest, hprefix.symm, Nat.add_left_cancel hlen⟩
  · have hboth : ((service κ α handler size .once w).guard fun _ a => a.Spares w).Reachable t ∧
        s.late ≤ t.late := by
      refine ht.invariant (I := fun t =>
        ((service κ α handler size .once w).guard fun _ a => a.Spares w).Reachable t ∧
          s.late ≤ t.late) ?_ ?_
      · rintro t rfl
        exact ⟨h, Nat.le_refl _⟩
      · rintro t a t' ⟨hreach, hle⟩ hstep
        have hm := spares_moves (counted_sound hreach).1 hstep
        exact ⟨hreach.step hstep, hle.trans (moves_late hm)⟩
    obtain ⟨-, owing', hcounted'⟩ := counted_sound hboth.1
    have hcount := hcounted'.count
    have hle := hboth.2
    omega

end Invariants

namespace ServiceLemmas

open Task.RefineLemmas

/-- A queue of three entries and the consumer task `true`. -/
def start : Sys Unit Bool Nat where
  calls := {
    queue := prQueueProducerSet (prQueueConsumerSet (prQueueInit (fun _ => 0) 3) (some true)) none
    slot _ := 0
    pc _ := .idle
    pushed := []
    popped := []
    scheduled := [] }
  sched := Task.RefineLemmas.start
  running := false
  late := 0

theorem start_fresh : Fresh (fun _ => true) 3 true start :=
  ⟨⟨_, none, nofun, rfl⟩, fun _ => rfl, rfl, rfl, fresh_start, rfl, rfl, rfl⟩

/-- Two entries are pushed before the task runs, and its handler pops one. -/
def pushes : List (Act Unit Bool Nat) :=
  [.push () 7, .pushLocked (), .pushed () (sdkAt 0) 1, .push () 8, .pushLocked (),
    .pushed () (sdkAt 0) 1, .run, .pop 0, .popLocked, .popped (sdkAt 0) 1]

/-- The handler pops another one, and sees the end of the queue. -/
def pops : List (Act Unit Bool Nat) :=
  [.pop 0, .popLocked, .popped (sdkAt 0) 1, .pop 0, .popLocked, .popped (sdkAt 0) 1]

end ServiceLemmas

open ServiceLemmas in
theorem queue_drained_two :
    ∃ s, (service Unit Nat (fun _ => true) 3 .untilEmpty true).Reachable s ∧
      s.calls.pushed = [7, 8] ∧ s.calls.popped = s.calls.pushed := by
  have hrun : exec (step .untilEmpty true) start (pushes ++ pops) = some _ := rfl
  have hs := Lts.reachable_exec (.init start_fresh) hrun
  exact ⟨_, hs, rfl, (queue_drained Unit Nat (fun _ => true) 3 true hs).2
    ⟨by decide, rfl, fun k => by cases k <;> rfl⟩⟩

open ServiceLemmas in
theorem queue_stranded_two :
    ∃ s rest,
      ((service Unit Nat (fun _ => true) 3 .once true).guard fun _ a => a.Spares true).Reachable s ∧
      s.calls.pushed = s.calls.popped ++ rest ∧ rest.length = 1 := by
  have hrun : exec (guarded (step .once true) fun _ a => a.Spares true) start pushes = some _ := rfl
  have hs := Lts.Reachable.exec_guarded (.init start_fresh) hrun
  obtain ⟨rest, hrest⟩ := (queue_stranded Unit Nat (fun _ => true) 3 true hs).1
    ⟨by decide, rfl, fun k => by cases k <;> rfl⟩
  exact ⟨_, rest, hs, hrest⟩

end Picore.Queue.Service
