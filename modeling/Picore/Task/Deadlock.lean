import Picore.Task.Refine
import Picore.Lib.Transition
import Picore.Lib.Lock

/-!
# The lock of a queue

Several contexts make calls on one queue, each with a stack of calls that it is in. The
steps are those between two accesses to what the contexts share: the lock is taken, a
locked section runs and releases the lock, a flag or a pointer is read without the lock.

`queue_reschedule` calls `add_alarm_at` in its locked section, with `fire_if_past`. If the
time has passed, the SDK may run the callback before it returns, in the same context.
The callback, `ptask_alarm`, takes the lock of the queue.

Results:
1. `step_owned`: at most one context holds the lock, in one of its calls.
2. `no_self_deadlock`: no context waits for itself as long as the SDK runs no callback in
   `add_alarm_at`, and the first one that it runs waits for its own context.
   `timely_of_future`: it runs none before the deadline. `exec_in_us_deadlocks`: a delay
   of zero. `self_deadlock_forever`: the wait never ends.
3. `call_alone`: without such callbacks, a context that is alone runs the calls of the
   library.
-/

namespace Picore.Task.Deadlock

open Fuel Transition Lock

variable {κ ι : Type} [DecidableEq κ] [DecidableEq ι] {handler : ι → Bool}

/-- The sections between `spin_lock_blocking` and `spin_unlock`, with the local variables that they
read. -/
inductive Section (ι : Type)
  /-- In `pr_task_exec`. -/
  | exec (task : ι)
  /-- In `pr_task_exec_in_us` and `pr_task_exec_in_ms`. -/
  | execIn (task : ι)
  /-- In `queue_waiting_process`, which has read the time. -/
  | expire (now : Nat)
  /-- In `queue_reschedule`. -/
  | arm
  /-- In `pr_task_queue_run_until_empty`. -/
  | pop

/-- Where a call stands. A context may be in several calls, since `add_alarm_at` can run the
callback of an alarm before it returns. -/
inductive Pc (ι : Type)
  /-- At `spin_lock_blocking`. -/
  | locking (sec : Section ι)
  /-- Behind it. -/
  | inside (sec : Section ι)
  /-- At the start of `queue_reschedule`. -/
  | reschedule
  /-- `queue_reschedule` has found an alarm. -/
  | cancelling
  /-- `queue_reschedule` is done with the old alarm. -/
  | checking
  /-- In `add_alarm_at`, while the callback runs. -/
  | calling

/-- The frames that hold the lock: those behind `spin_lock_blocking`. -/
@[simp] def Pc.holds : Pc ι → Bool
  | .inside _ => true
  | .calling => true
  | _ => false

/-- The queue with its tasks, the context that holds `queue->lock`, and the calls that
each context is in, the innermost first. -/
structure Contexts (κ ι : Type) where
  sched : Sched ι
  lock : Option κ
  stack : κ → List (Pc ι)

/-- The state after a step of the context `k`. -/
def Contexts.to (s : Contexts κ ι) (k : κ) (stack : List (Pc ι)) (lock : Option κ)
    (sched : Sched ι) : Contexts κ ι where
  sched := sched
  lock := lock
  stack := Function.update s.stack k stack

omit [DecidableEq ι] in
@[simp] theorem Contexts.to_sched (s : Contexts κ ι) (k : κ) (stack : List (Pc ι))
    (lock : Option κ) (sched : Sched ι) : (s.to k stack lock sched).sched = sched := rfl

omit [DecidableEq ι] in
@[simp] theorem Contexts.to_lock (s : Contexts κ ι) (k : κ) (stack : List (Pc ι))
    (lock : Option κ) (sched : Sched ι) : (s.to k stack lock sched).lock = lock := rfl

omit [DecidableEq ι] in
@[simp] theorem Contexts.to_stack (s : Contexts κ ι) (k : κ) (stack : List (Pc ι)) (lock : Option κ)
    (sched : Sched ι) : (s.to k stack lock sched).stack k = stack := Function.update_self ..

omit [DecidableEq ι] in
@[simp] theorem Contexts.to_to (s : Contexts κ ι) (k : κ) (st st' : List (Pc ι))
    (lock lock' : Option κ) (sched sched' : Sched ι) :
    (s.to k st lock sched).to k st' lock' sched' = s.to k st' lock' sched' := by
  simp [Contexts.to]

omit [DecidableEq ι] in
theorem Contexts.to_self {s : Contexts κ ι} {k : κ} {stack : List (Pc ι)} {lock : Option κ}
    (hk : s.stack k = stack) (hlock : s.lock = lock) (sched : Sched ι) :
    s.to k stack lock sched = { s with sched := sched } := by
  subst hk hlock
  simp [Contexts.to]

omit [DecidableEq κ] [DecidableEq ι] in
theorem Contexts.mem_stack {s : Contexts κ ι} {k : κ} {pc : Pc ι} {rest : List (Pc ι)}
    (hk : s.stack k = pc :: rest) : pc ∈ s.stack k := by
  rw [hk]
  exact List.mem_cons_self

/-- The SDK, and for which times `add_alarm_at` runs the callback before it returns. It
may do so for a time that has passed, and only then. -/
structure AlarmSdk extends Sdk where
  fires : Nat → Bool
  fires_past : ∀ time, fires time = true → time ≤ getAbsoluteTime

/-- `queue->alarm = id`. -/
def setAlarm (id : Int) (s : Sched ι) : Sched ι :=
  { s with queue := { s.queue with alarm := id } }

/-- The labels of the steps: the start of each call, the lock, the end of each locked section, and
the reads of `queue_reschedule` outside of it. -/
inductive Act (ι : Type)
  | exec (task : ι)
  | execIn (task : ι)
  | alarm (id : Int) (now : Nat)
  | pop
  | lock
  | leave
  | leaveIn (deadline : Nat)
  | readAlarm
  | cancel
  | readWaiting
  | arm (sdk : AlarmSdk)
  | returned (id : Int)

/-- One step of one context, at the innermost of its calls. A context that waits for a lock that is
held has none. -/
inductive Step : Contexts κ ι → κ × Act ι → Contexts κ ι → Prop
  /-- `pr_task_exec`, up to the lock. -/
  | exec {s : Contexts κ ι} {k : κ} {task : ι} : s.stack k = [] →
      (s.sched.tasks task).handler = true → (s.sched.tasks task).queue = true →
      Step s (k, .exec task) (s.to k [.locking (.exec task)] s.lock s.sched)
  /-- `pr_task_exec_in_us` and `pr_task_exec_in_ms`, up to the lock. -/
  | execIn {s : Contexts κ ι} {k : κ} {task : ι} : s.stack k = [] →
      (s.sched.tasks task).queue = true →
      Step s (k, .execIn task)
        (s.to k (if (s.sched.tasks task).pending then [] else [.locking (.execIn task)])
          s.lock s.sched)
  /-- `ptask_alarm` in an interrupt, up to the lock. -/
  | alarm {s : Contexts κ ι} {k : κ} {id : Int} {now : Nat} : s.stack k = [] →
      Step s (k, .alarm id now)
        (s.to k [.locking (.expire now)] s.lock (Call.ack s.sched (.alarm id)))
  /-- A round of `pr_task_queue_run_until_empty`, up to the lock. -/
  | pop {s : Contexts κ ι} {k : κ} : s.stack k = [] →
      Step s (k, .pop) (s.to k [.locking .pop] s.lock s.sched)
  /-- `spin_lock_blocking` returns when the lock is free. -/
  | lock {s : Contexts κ ι} {k : κ} {sec : Section ι} {rest : List (Pc ι)} :
      s.stack k = .locking sec :: rest → s.lock = none →
      Step s (k, .lock) (s.to k (.inside sec :: rest) (some k) s.sched)
  /-- The locked section of `pr_task_exec`. -/
  | leaveExec {s : Contexts κ ι} {k : κ} {task : ι} {rest : List (Pc ι)} {reschedule : Bool}
      {sched : Sched ι} : s.stack k = .inside (.exec task) :: rest →
      Returns (fun fuel => execLocked task fuel s.sched) (reschedule, sched) →
      Step s (k, .leave) (s.to k (if reschedule then .reschedule :: rest else rest) none sched)
  /-- The locked section of `pr_task_exec_in_us` and `pr_task_exec_in_ms`. -/
  | leaveIn {s : Contexts κ ι} {k : κ} {task : ι} {rest : List (Pc ι)} {deadline : Nat}
      {sched : Sched ι} : s.stack k = .inside (.execIn task) :: rest →
      Returns (fun fuel => execInLocked task deadline fuel s.sched) sched →
      Step s (k, .leaveIn deadline) (s.to k (.reschedule :: rest) none sched)
  /-- The locked section of `queue_waiting_process`. -/
  | leaveExpire {s : Contexts κ ι} {k : κ} {now : Nat} {rest : List (Pc ι)} {sched : Sched ι} :
      s.stack k = .inside (.expire now) :: rest →
      Returns (fun fuel => waitingProcessLocked now fuel s.sched) sched →
      Step s (k, .leave) (s.to k (.reschedule :: rest) none sched)
  /-- The locked section of `pr_task_queue_run_until_empty`. -/
  | leavePop {s : Contexts κ ι} {k : κ} {rest : List (Pc ι)} :
      s.stack k = .inside .pop :: rest →
      Step s (k, .leave) (s.to k rest none (prTaskPendingQueuePop s.sched).2)
  /-- `if (queue->alarm >= 0)`. -/
  | readAlarm {s : Contexts κ ι} {k : κ} {rest : List (Pc ι)} :
      s.stack k = .reschedule :: rest →
      Step s (k, .readAlarm)
        (s.to k ((if s.sched.queue.alarm ≥ 0 then .cancelling else .checking) :: rest)
          s.lock s.sched)
  /-- `cancel_alarm(queue->alarm)` and `queue->alarm = -1`. -/
  | cancel {s : Contexts κ ι} {k : κ} {rest : List (Pc ι)} :
      s.stack k = .cancelling :: rest →
      Step s (k, .cancel)
        (s.to k (.checking :: rest) s.lock
          (setAlarm (-1) (cancelAlarm s.sched.queue.alarm s.sched)))
  /-- `if (!queue->waiting)`. -/
  | readWaiting {s : Contexts κ ι} {k : κ} {rest : List (Pc ι)} :
      s.stack k = .checking :: rest →
      Step s (k, .readWaiting)
        (s.to k (if s.sched.queue.waiting = none then rest else .locking .arm :: rest)
          s.lock s.sched)
  /-- The locked section of `queue_reschedule`, when the callback is left to the
  interrupt. -/
  | arm {s : Contexts κ ι} {k : κ} {rest : List (Pc ι)} {t : ι} {sdk : AlarmSdk}
      {sched : Sched ι} : s.stack k = .inside .arm :: rest → s.sched.queue.waiting = some t →
      sdk.fires (s.sched.tasks t).exec_at = false → rescheduleArm sdk.toSdk s.sched = .ok sched →
      Step s (k, .arm sdk) (s.to k rest none sched)
  /-- `add_alarm_at` runs the callback: `ptask_alarm`, up to the lock. -/
  | call {s : Contexts κ ι} {k : κ} {rest : List (Pc ι)} {t : ι} {sdk : AlarmSdk} :
      s.stack k = .inside .arm :: rest → s.sched.queue.waiting = some t →
      sdk.fires (s.sched.tasks t).exec_at = true →
      Step s (k, .arm sdk)
        (s.to k (.locking (.expire sdk.getAbsoluteTime) :: .calling :: rest) s.lock
          (setAlarm (-1) s.sched))
  /-- The callback has returned, and `add_alarm_at` returns. -/
  | returned {s : Contexts κ ι} {k : κ} {rest : List (Pc ι)} {id : Int} :
      s.stack k = .calling :: rest →
      Step s (k, .returned id) (s.to k rest none (setAlarm id s.sched))

/-- The contexts on a queue. No context is in a call at first. -/
def locking (κ : Type) {ι : Type} [DecidableEq κ] [DecidableEq ι] (handler : ι → Bool) :
    Lts (Contexts κ ι) (κ × Act ι) where
  init s := Fresh handler s.sched ∧ s.lock = none ∧ ∀ k, s.stack k = []
  step := Step

/-- The context `k` is at `spin_lock_blocking` while it holds the lock itself. -/
def SelfDeadlock (s : Contexts κ ι) (k : κ) : Prop :=
  (∃ sec rest, s.stack k = .locking sec :: rest) ∧ s.lock = some k

/-- `queue_reschedule` sets the alarm for a time for which the SDK does not run the
callback in `add_alarm_at`. -/
def Timely (s : Contexts κ ι) : κ × Act ι → Prop
  | (_, .arm sdk) =>
    ∀ t, s.sched.queue.waiting = some t → sdk.fires (s.sched.tasks t).exec_at = false
  | _ => True

/-! ## 1. The owner of the lock -/

/-- The lock has an owner exactly when one call of one context is behind
`spin_lock_blocking`. -/
def Contexts.Sound (s : Contexts κ ι) : Prop := Owned Pc.holds s.lock s.stack

omit [DecidableEq ι] in
@[simp] theorem count_inside (sec : Section ι) (rest : List (Pc ι)) :
    (Pc.inside sec :: rest).countP Pc.holds = rest.countP Pc.holds + 1 :=
  List.countP_cons_of_pos rfl

omit [DecidableEq ι] in
@[simp] theorem count_calling (rest : List (Pc ι)) :
    (Pc.calling :: rest).countP Pc.holds = rest.countP Pc.holds + 1 :=
  List.countP_cons_of_pos rfl

theorem step_owned {s s' : Contexts κ ι} {l : κ × Act ι} (h : s.Sound) (hs : Step s l s') :
    s'.Sound := by
  cases hs with
  | exec hk => exact h.keep (by simp [hk])
  | execIn hk =>
    refine h.keep ?_
    split
    · simp [hk]
    · simp [hk]
  | alarm hk => exact h.keep (by simp [hk])
  | pop hk => exact h.keep (by simp [hk])
  | lock hk hfree =>
    have hnone : Owned Pc.holds none s.stack := hfree ▸ h
    exact hnone.acquire (by simp [hk])
  | leaveExec hk =>
    refine h.release ?_
    split
    · simp [hk]
    · simp [hk]
  | leaveIn hk => exact h.release (by simp [hk])
  | leaveExpire hk => exact h.release (by simp [hk])
  | leavePop hk => exact h.release (by simp [hk])
  | readAlarm hk =>
    refine h.keep ?_
    split
    · simp [hk]
    · simp [hk]
  | cancel hk => exact h.keep (by simp [hk])
  | readWaiting hk =>
    refine h.keep ?_
    split
    · simp [hk]
    · simp [hk]
  | arm hk => exact h.release (by simp [hk])
  | call hk => exact h.keep (by simp [hk])
  | returned hk => exact h.release (by simp [hk])

theorem reachable_sound {s : Contexts κ ι} (h : (locking κ handler).Reachable s) : s.Sound := by
  refine h.invariant (I := Contexts.Sound) ?_ fun _ _ _ hsound hs => step_owned hsound hs
  rintro s ⟨-, hlock, hstack⟩ k
  rw [hlock, hstack]
  rfl

/-! ## 2. Self-deadlock -/

omit [DecidableEq κ] [DecidableEq ι] in
/-- A context in one call at most is in no other call. -/
theorem rest_eq_nil {s : Contexts κ ι} (h : ∀ k, (s.stack k).length ≤ 1) {k : κ} {pc : Pc ι}
    {rest : List (Pc ι)} (hk : s.stack k = pc :: rest) : rest = [] := by
  have hle := h k
  rw [hk] at hle
  exact List.eq_nil_of_length_eq_zero (Nat.le_zero.mp (Nat.le_of_succ_le_succ hle))

/-- Without callbacks in `add_alarm_at`, a context is in one call at most. -/
theorem step_single {s s' : Contexts κ ι} {l : κ × Act ι} (h : ∀ k, (s.stack k).length ≤ 1)
    (hs : Step s l s') (hok : Timely s l) (k : κ) : (s'.stack k).length ≤ 1 := by
  have hkeep : ∀ (j : κ) (stack : List (Pc ι)), stack.length ≤ 1 →
      (Function.update s.stack j stack k).length ≤ 1 := by
    intro j stack hle
    rcases eq_or_ne k j with rfl | hne
    · rwa [Function.update_self]
    · rw [Function.update_of_ne hne]
      exact h k
  have hrest : ∀ {j pc rest}, s.stack j = pc :: rest → rest.length ≤ 0 := fun hj =>
    Nat.le_of_eq (congrArg List.length (rest_eq_nil h hj))
  cases hs with
  | exec _ => exact hkeep _ _ le_rfl
  | execIn _ =>
    refine hkeep _ _ ?_
    split
    · exact Nat.zero_le 1
    · exact le_rfl
  | alarm _ => exact hkeep _ _ le_rfl
  | pop _ => exact hkeep _ _ le_rfl
  | lock hk _ => exact hkeep _ _ (Nat.succ_le_succ (hrest hk))
  | leaveExec hk _ =>
    refine hkeep _ _ ?_
    split
    · exact Nat.succ_le_succ (hrest hk)
    · exact Nat.le_succ_of_le (hrest hk)
  | leaveIn hk _ => exact hkeep _ _ (Nat.succ_le_succ (hrest hk))
  | leaveExpire hk _ => exact hkeep _ _ (Nat.succ_le_succ (hrest hk))
  | leavePop hk => exact hkeep _ _ (Nat.le_succ_of_le (hrest hk))
  | readAlarm hk => exact hkeep _ _ (Nat.succ_le_succ (hrest hk))
  | cancel hk => exact hkeep _ _ (Nat.succ_le_succ (hrest hk))
  | readWaiting hk =>
    refine hkeep _ _ ?_
    split
    · exact Nat.le_succ_of_le (hrest hk)
    · exact Nat.succ_le_succ (hrest hk)
  | arm hk _ _ _ => exact hkeep _ _ (Nat.le_succ_of_le (hrest hk))
  | @call _ _ t _ _ hw hfires =>
    rw [hok t hw] at hfires
    cases hfires
  | returned hk => exact hkeep _ _ (Nat.le_succ_of_le (hrest hk))

omit [DecidableEq ι] in
/-- A context in one call, at the lock, does not hold it. -/
theorem not_deadlocked {s : Contexts κ ι} (h : s.Sound) (hsingle : ∀ k, (s.stack k).length ≤ 1)
    (k : κ) : ¬SelfDeadlock s k := by
  rintro ⟨⟨sec, rest, hk⟩, hlock⟩
  obtain rfl := rest_eq_nil hsingle hk
  have hone := h k
  rw [hk, if_pos hlock] at hone
  simp at hone

/-- The callback in `add_alarm_at` waits for the context that it runs in. -/
theorem call_deadlocks {s s' : Contexts κ ι} {l : κ × Act ι} (h : s.Sound) (hs : Step s l s')
    (hlate : ¬Timely s l) : SelfDeadlock s' l.1 := by
  have hsound := step_owned h hs
  cases hs with
  | arm _ hw hquiet _ =>
    refine absurd (fun u hu => ?_) hlate
    obtain rfl : _ = u := Option.some.inj (hw.symm.trans hu)
    exact hquiet
  | @call k rest t sdk hk hw hfires =>
    have hcalling : .calling ∈ (s.to k (.locking (.expire sdk.getAbsoluteTime) :: .calling :: rest)
        s.lock (setAlarm (-1) s.sched)).stack k := by simp
    exact ⟨⟨_, _, Contexts.to_stack ..⟩, hsound.owner hcalling rfl⟩
  | _ => exact absurd trivial hlate

omit [DecidableEq ι] [DecidableEq κ] in
/-- The SDK leaves the callback of a time that is still to come to the interrupt. -/
theorem timely_of_future {s : Contexts κ ι} {k : κ} {sdk : AlarmSdk}
    (h : ∀ t, s.sched.queue.waiting = some t → sdk.getAbsoluteTime < (s.sched.tasks t).exec_at) :
    Timely s (k, .arm sdk) := by
  intro t ht
  by_contra hfires
  have hpast := sdk.fires_past _ (Bool.eq_true_of_not_eq_false hfires)
  exact absurd hpast (Nat.not_le.mpr (h t ht))

/-- A step changes the stack of its context only. -/
theorem step_stack {s s' : Contexts κ ι} {l : κ × Act ι} {k : κ} (hs : Step s l s')
    (hne : l.1 ≠ k) : s'.stack k = s.stack k := by
  cases hs with
  | _ => exact Function.update_of_ne hne.symm _ _

/-- A lock that is held is not released by another context. -/
theorem step_lock {s s' : Contexts κ ι} {l : κ × Act ι} {k : κ} (h : s.Sound) (hs : Step s l s')
    (hne : l.1 ≠ k) (hlock : s.lock = some k) : s'.lock = some k := by
  have howner : ∀ {pc rest}, s.stack l.1 = pc :: rest → pc.holds = true → s'.lock = some k := by
    intro pc rest hj hpc
    have howner := h.owner (Contexts.mem_stack hj) hpc
    exact absurd (Option.some.inj (howner.symm.trans hlock)) hne
  cases hs with
  | lock _ hfree =>
    rw [hlock] at hfree
    cases hfree
  | leaveExec hj => exact howner hj rfl
  | leaveIn hj => exact howner hj rfl
  | leaveExpire hj => exact howner hj rfl
  | leavePop hj => exact howner hj rfl
  | arm hj => exact howner hj rfl
  | returned hj => exact howner hj rfl
  | _ => exact hlock

/-- A context that waits for itself makes no step. -/
theorem deadlocked_stuck {s s' : Contexts κ ι} {l : κ × Act ι} {k : κ} (hdead : SelfDeadlock s k)
    (hs : Step s l s') : l.1 ≠ k := by
  rintro rfl
  obtain ⟨⟨sec, rest, hk⟩, hlock⟩ := hdead
  cases hs with
  | lock _ hfree =>
    rw [hlock] at hfree
    cases hfree
  -- The other steps are not made at the lock.
  | _ => simp_all

theorem step_deadlock {s s' : Contexts κ ι} {l : κ × Act ι} {k : κ} (h : s.Sound)
    (hdead : SelfDeadlock s k) (hs : Step s l s') : SelfDeadlock s' k := by
  have hne := deadlocked_stuck hdead hs
  obtain ⟨⟨sec, rest, hk⟩, hlock⟩ := hdead
  exact ⟨⟨sec, rest, (step_stack hs hne).trans hk⟩, step_lock h hs hne hlock⟩

theorem self_deadlock_forever {s t : Contexts κ ι} (h : (locking κ handler).Reachable s) {k : κ}
    (hdead : SelfDeadlock s k) (ht : ((locking κ handler).after s).Reachable t) :
    SelfDeadlock t k := by
  have hboth : t.Sound ∧ SelfDeadlock t k := by
    refine ht.invariant (I := fun t => t.Sound ∧ SelfDeadlock t k) ?_ ?_
    · rintro t rfl
      exact ⟨reachable_sound h, hdead⟩
    · exact fun u l v hu hs => ⟨step_owned hu.1 hs, step_deadlock hu.1 hu.2 hs⟩
  exact hboth.2

/-- No context comes to the lock of the queue while it holds it, as long as every
`add_alarm_at` in `queue_reschedule` is called with a time for which the SDK does not run
the callback itself. The first one that is called with another time makes its context wait
for itself. -/
theorem no_self_deadlock (handler : ι → Bool) {s : Contexts κ ι}
    (h : ((locking κ handler).guard Timely).Reachable s) :
    (∀ k, ¬SelfDeadlock s k) ∧
    ∀ l s', (locking κ handler).step s l s' → ((∀ k, ¬SelfDeadlock s' k) ↔ Timely s l) := by
  have hboth : s.Sound ∧ ∀ k, (s.stack k).length ≤ 1 := by
    refine h.invariant (I := fun s => s.Sound ∧ ∀ k, (s.stack k).length ≤ 1) ?_ ?_
    · intro s hs
      refine ⟨reachable_sound (.init hs), fun k => ?_⟩
      rw [hs.2.2 k]
      exact Nat.zero_le 1
    · exact fun s l s' hs hstep =>
        ⟨step_owned hs.1 hstep.1, step_single hs.2 hstep.1 hstep.2⟩
  obtain ⟨hsound, hsingle⟩ := hboth
  refine ⟨not_deadlocked hsound hsingle, fun l s' hs => ⟨fun hnone => ?_, fun hok => ?_⟩⟩
  · by_contra hlate
    exact hnone l.1 (call_deadlocks hsound hs hlate)
  · exact not_deadlocked (step_owned hsound hs) (step_single hsingle hs hok)

namespace DeadlockLemmas

open RefineLemmas

def atRest : Contexts Bool Bool := ⟨start, none, fun _ => []⟩

/-- The queue after the task `false` gets the deadline `5`. -/
def delayed : Sched Bool :=
  match execInLocked false 5 1 start with
  | .ok s => s
  | .error _ => start

def within (pc : Pc Bool) (lock : Option Bool) (sched : Sched Bool) : Contexts Bool Bool :=
  atRest.to false [pc] lock sched

/-- At the time `5`, the context `false` has asked for the task `false` with a delay of
zero. It is going to set the alarm. -/
def atArm : Contexts Bool Bool := within (.inside .arm) (some false) delayed

def firing : AlarmSdk where
  toSdk := sdkAt 5
  fires time := decide (time ≤ 5)
  fires_past _ h := of_decide_eq_true h

theorem within_step {pc pc' : Pc Bool} {lock lock' : Option Bool} {sched sched' : Sched Bool}
    {l : Bool × Act Bool} (h : Step (within pc lock sched) l
      ((within pc lock sched).to false [pc'] lock' sched')) :
    Step (within pc lock sched) l (within pc' lock' sched') := by
  rwa [within, Contexts.to_to] at h

theorem reachable_atArm : ((locking Bool fun _ => true).guard Timely).Reachable atArm := by
  have h1 : Step atRest (false, .execIn false) (within (.locking (.execIn false)) none start) :=
    .execIn rfl rfl
  have h2 : Step _ (false, .lock) (within (.inside (.execIn false)) (some false) start) :=
    within_step (.lock rfl rfl)
  have h3 : Step (within (.inside (.execIn false)) (some false) start)
      (false, .leaveIn ((sdkAt 5).makeTimeoutTimeUs 0)) (within .reschedule none delayed) :=
    within_step (@Step.leaveIn _ _ _ _ _ _ false _ _ _ rfl ⟨1, rfl⟩)
  have h4 : Step _ (false, .readAlarm) (within .checking none delayed) :=
    within_step (.readAlarm rfl)
  have h5 : Step _ (false, .readWaiting) (within (.locking .arm) none delayed) :=
    within_step (.readWaiting rfl)
  have h6 : Step _ (false, .lock) atArm := within_step (.lock rfl rfl)
  have hinit : ((locking Bool fun _ => true).guard Timely).Reachable atRest :=
    .init ⟨fresh_start, rfl, fun _ => rfl⟩
  exact (((((hinit.step ⟨h1, trivial⟩).step ⟨h2, trivial⟩).step ⟨h3, trivial⟩).step
    ⟨h4, trivial⟩).step ⟨h5, trivial⟩).step ⟨h6, trivial⟩

end DeadlockLemmas

open RefineLemmas DeadlockLemmas in
theorem no_self_deadlock_atArm :
    ((locking Bool fun _ => true).guard Timely).Reachable atArm ∧
    (∀ k, ¬SelfDeadlock atArm k) ∧
    ∀ l s', (locking Bool fun _ => true).step atArm l s' →
      ((∀ k, ¬SelfDeadlock s' k) ↔ Timely atArm l) :=
  ⟨reachable_atArm, no_self_deadlock (fun _ => true) reachable_atArm⟩

open DeadlockLemmas in
/-- `pr_task_exec_in_us(task, 0)`: the deadline has passed when `add_alarm_at` is called. -/
theorem exec_in_us_deadlocks :
    ∃ s : Contexts Bool Bool, (locking Bool fun _ => true).Reachable s ∧ SelfDeadlock s false :=
  ⟨_, reachable_atArm.of_guard.step (a := (false, .arm firing)) (Step.call rfl rfl rfl),
    ⟨_, _, Contexts.to_stack ..⟩, rfl⟩

/-! ## 3. A context alone -/

/-- A run without callbacks in `add_alarm_at`. -/
def Runs (s t : Contexts κ ι) : Prop :=
  ∀ handler, (((locking κ handler).guard Timely).after s).Reachable t

namespace Runs

theorem refl (s : Contexts κ ι) : Runs s s := fun _ => .init rfl

theorem step {s t u : Contexts κ ι} {l : κ × Act ι} (hs : Step s l t) (hok : Timely s l)
    (h : Runs t u) : Runs s u := fun handler =>
  Lts.Reachable.after (L := ((locking κ handler).guard Timely).after s)
    (.step (.init rfl) ⟨hs, hok⟩) (h handler)

end Runs

/-- The SDK when it leaves every callback to the interrupt. -/
def quiet (sdk : Sdk) : AlarmSdk where
  toSdk := sdk
  fires _ := false
  fires_past _ h := by cases h

section Alone

variable {s : Contexts κ ι} {k : κ} {sdk : Sdk} {sched : Sched ι}

theorem checking_alone (hk : s.stack k = [.checking]) (hfree : s.lock = none)
    (hres : (if s.sched.queue.waiting = none then .ok s.sched else rescheduleArm sdk s.sched) =
      .ok sched) : Runs s (s.to k [] none sched) := by
  refine .step (.readWaiting hk) trivial ?_
  cases hw : s.sched.queue.waiting with
  | none =>
    rw [hw, if_pos rfl] at hres
    cases hres
    rw [if_pos rfl, hfree]
    exact .refl _
  | some t =>
    rw [hw, if_neg (by simp)] at hres
    rw [if_neg (by simp)]
    refine .step (.lock (Contexts.to_stack ..) hfree) trivial ?_
    refine .step (l := (k, .arm (quiet sdk))) (.arm (Contexts.to_stack ..) hw rfl hres)
      (fun _ _ => rfl) ?_
    simp only [Contexts.to_to]
    exact .refl _

theorem reschedule_alone (hk : s.stack k = [.reschedule]) (hfree : s.lock = none)
    (hres : queueReschedule sdk s.sched = .ok sched) : Runs s (s.to k [] none sched) := by
  refine .step (.readAlarm hk) trivial ?_
  by_cases halarm : s.sched.queue.alarm ≥ 0
  · rw [queueReschedule, rescheduleCancel, if_pos halarm] at hres
    rw [if_pos halarm]
    refine .step (.cancel (Contexts.to_stack ..)) trivial ?_
    have hrun := checking_alone (s := s.to k [.checking] s.lock
      (setAlarm (-1) (cancelAlarm s.sched.queue.alarm s.sched))) (Contexts.to_stack ..) hfree hres
    rw [Contexts.to_to] at hrun ⊢
    exact hrun
  · rw [queueReschedule, rescheduleCancel, if_neg halarm] at hres
    rw [if_neg halarm]
    have hrun := checking_alone (s := s.to k [.checking] s.lock s.sched)
      (Contexts.to_stack ..) hfree hres
    rw [Contexts.to_to] at hrun
    exact hrun

/-- The lock is taken, the section runs, and `queue_reschedule` follows. -/
theorem section_alone {sec : Section ι} {l : κ × Act ι} {sched' : Sched ι}
    (hk : s.stack k = [.locking sec]) (hfree : s.lock = none)
    (hleave : Step (s.to k [.inside sec] (some k) s.sched) l
      ((s.to k [.inside sec] (some k) s.sched).to k [.reschedule] none sched))
    (hok : Timely (s.to k [.inside sec] (some k) s.sched) l)
    (hres : queueReschedule sdk sched = .ok sched') : Runs s (s.to k [] none sched') := by
  refine .step (.lock hk hfree) trivial (.step hleave hok ?_)
  have hrun := reschedule_alone (s := s.to k [.reschedule] none sched) (Contexts.to_stack ..)
    rfl hres
  rw [Contexts.to_to] at hrun ⊢
  exact hrun

theorem execIn_alone (hidle : s.stack k = []) (hfree : s.lock = none) {t : ι} {d fuel : Nat}
    (hrun : execIn sdk t d fuel s.sched = .ok sched) : Runs s { s with sched := sched } := by
  rw [execIn] at hrun
  cases hp : (s.sched.tasks t).pending with
  | true =>
    rw [hp, if_pos rfl] at hrun
    cases hrun
    exact .refl s
  | false =>
    cases hq : (s.sched.tasks t).queue with
    | false => simp [hp, hq] at hrun
    | true =>
      simp only [hp, hq, Bool.false_eq_true, if_false, Bool.not_true] at hrun
      obtain ⟨s1, hin, hres⟩ := bind_eq_ok.mp hrun
      refine .step (.execIn hidle hq) trivial ?_
      rw [hp, if_neg (by simp)]
      have hsec := section_alone (s := s.to k [.locking (.execIn t)] s.lock s.sched)
        (l := (k, .leaveIn d)) (Contexts.to_stack ..) hfree
        (.leaveIn (Contexts.to_stack ..) ⟨fuel, hin⟩) trivial hres
      rw [Contexts.to_to, Contexts.to_self hidle hfree] at hsec
      exact hsec

theorem exec_alone (hidle : s.stack k = []) (hfree : s.lock = none) {task : Option ι} {fuel : Nat}
    {err : Int} (hexec : prTaskExec sdk task fuel s.sched = .ok (err, sched)) :
    Runs s { s with sched := sched } := by
  cases task with
  | none =>
    cases hexec
    exact .refl s
  | some t =>
    rw [prTaskExec] at hexec
    cases hh : (s.sched.tasks t).handler with
    | false =>
      simp only [hh, Bool.not_false, if_true] at hexec
      cases hexec
      exact .refl s
    | true =>
      cases hq : (s.sched.tasks t).queue with
      | false =>
        simp only [hh, hq, Bool.not_false, Bool.not_true, Bool.false_eq_true, if_false, if_true]
          at hexec
        cases hexec
        exact .refl s
      | true =>
        simp only [hh, hq, Bool.not_true, Bool.false_eq_true, if_false] at hexec
        obtain ⟨⟨reschedule, s2⟩, hlocked, hrest⟩ := bind_eq_ok.mp hexec
        refine .step (.exec hidle hh hq) trivial ?_
        have hleave := Step.leaveExec (s := (s.to k [.locking (.exec t)] s.lock s.sched).to k
          [.inside (.exec t)] (some k) s.sched) (k := k) (Contexts.to_stack ..) ⟨fuel, hlocked⟩
        cases reschedule with
        | false =>
          cases hrest
          refine .step (.lock (Contexts.to_stack ..) hfree) trivial (.step hleave trivial ?_)
          simp only [Contexts.to_to, Bool.false_eq_true, if_false, Contexts.to_self hidle hfree]
          exact .refl _
        | true =>
          obtain ⟨s3, hres, h3⟩ := bind_eq_ok.mp hrest
          cases h3
          have hsec := section_alone (s := s.to k [.locking (.exec t)] s.lock s.sched)
            (Contexts.to_stack ..) hfree hleave trivial hres
          rw [Contexts.to_to, Contexts.to_self hidle hfree] at hsec
          exact hsec

/-- A context that makes a call while the others are at rest, and without callbacks in
`add_alarm_at`, does what the call of the library does. -/
theorem call_alone (hidle : s.stack k = []) (hfree : s.lock = none) {c : Call ι}
    {reply : Reply ι} (hrun : Returns (fun fuel => c.run sdk fuel s.sched) (reply, sched)) :
    Runs s { s with sched := sched } := by
  obtain ⟨fuel, hrun⟩ := hrun
  cases c with
  | exec task =>
    obtain ⟨⟨err, s1⟩, hexec, hreply⟩ := bind_eq_ok.mp hrun
    cases hreply
    exact exec_alone hidle hfree hexec
  | execInUs t us =>
    obtain ⟨s1, hin, hreply⟩ := bind_eq_ok.mp hrun
    cases hreply
    exact execIn_alone hidle hfree hin
  | execInMs t ms =>
    obtain ⟨s1, hin, hreply⟩ := bind_eq_ok.mp hrun
    cases hreply
    exact execIn_alone hidle hfree hin
  | alarm id =>
    obtain ⟨s1, halarm, hreply⟩ := bind_eq_ok.mp hrun
    cases hreply
    obtain ⟨s2, hloop, hres⟩ := bind_eq_ok.mp halarm
    refine .step (l := (k, .alarm id sdk.getAbsoluteTime)) (.alarm hidle) trivial ?_
    have hsec := section_alone (s := s.to k [.locking (.expire sdk.getAbsoluteTime)] s.lock
      (Call.ack s.sched (.alarm id))) (l := (k, .leave)) (Contexts.to_stack ..) hfree
      (.leaveExpire (Contexts.to_stack ..) ⟨fuel, hloop⟩) trivial hres
    rw [Contexts.to_to, Contexts.to_self hidle hfree] at hsec
    exact hsec
  | pop =>
    cases hrun
    refine .step (.pop hidle) trivial (.step (.lock (Contexts.to_stack ..) hfree) trivial
      (.step (.leavePop (Contexts.to_stack ..)) trivial ?_))
    simp only [Contexts.to_to, Contexts.to_sched, Contexts.to_self hidle hfree]
    exact .refl _

end Alone

end Picore.Task.Deadlock
