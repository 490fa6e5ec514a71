import Mathlib.Algebra.GroupWithZero.Nat
import Picore.Task.Lists

/-!
# The scheduler refines the schedule

Results:
1. `execLocked_represents`, `execInLocked_represents`,
   `waitingProcessLocked_represents`: the locked sections are the operations of
   the schedule.
2. `queueReschedule_represents`: setting the alarm does not touch the schedule.
3. `call_represents`: what one call does. `scheduler_refines`: every sequence of
   calls returns, with the replies and the schedule of the abstract run.
4. `pending_call`, `mem_pending_pop`: what a call does to the pending tasks.
-/

namespace Picore.Task

open Fuel Chain

variable {ι : Type} [DecidableEq ι] {handler : ι → Bool}

/-! ## 1. The locked sections -/

theorem is_pending {s : Sched ι} {a : Schedule ι Nat} (h : Represents handler s a) (t : ι) :
    (s.tasks t).pending = decide (t ∈ a.pending) := by
  rw [Bool.eq_iff_iff, h.pending_flag, decide_eq_true_iff]

theorem is_waiting {s : Sched ι} {a : Schedule ι Nat} (h : Represents handler s a) (t : ι) :
    (s.tasks t).waiting = decide (t ∈ a.sleepers) := by
  rw [Bool.eq_iff_iff, h.waiting_flag, decide_eq_true_iff]

theorem unwait_represents {s : Sched ι} {a : Schedule ι Nat} (h : Represents handler s a) (t : ι)
    {fuel : Nat} (hf : a.waiting.length ≤ fuel) :
    ∃ s', (if (s.tasks t).waiting then prTaskWaitQueueRemove t fuel s else .ok s) = .ok s' ∧
      Represents handler s' (a.unwait t) ∧ SameAlarm s s' := by
  by_cases hw : t ∈ a.sleepers
  · rw [is_waiting h, decide_eq_true hw]
    exact prTaskWaitQueueRemove_represents h hw hf
  · rw [is_waiting h, decide_eq_false hw, Schedule.unwait_of_not_mem hw]
    exact ⟨s, rfl, h, rfl, rfl⟩

/-- The locked section of `pr_task_exec`. The alarm is set again iff the task was
waiting. -/
theorem execLocked_represents {s : Sched ι} {a : Schedule ι Nat} (h : Represents handler s a)
    (t : ι) {fuel : Nat} (hf : a.waiting.length ≤ fuel) :
    ∃ s', execLocked t fuel s = .ok (decide (t ∈ a.sleepers), s') ∧
      Represents handler s' (a.exec t) ∧ SameAlarm s s' := by
  by_cases hp : t ∈ a.pending
  · have hw : t ∉ a.sleepers := a.disjoint t hp
    refine ⟨s, ?_, ?_, rfl, rfl⟩
    · rw [execLocked, is_pending h, decide_eq_true hp, decide_eq_false hw]
      rfl
    · rw [Schedule.exec, dif_pos hp]
      exact h
  · obtain ⟨s1, hrem, h1, halarm⟩ := unwait_represents h t hf
    have h2 := prTaskPendingQueueInsert_represents h1 (t := t) hp (a.not_mem_sleepers_unwait t)
    refine ⟨prTaskPendingQueueInsert t s1, ?_, ?_,
      halarm.trans (prTaskPendingQueueInsert_sameAlarm t s1)⟩
    · rw [execLocked, is_pending h, decide_eq_false hp, ← is_waiting h]
      simp only [Bool.false_eq_true, if_false, hrem, bind_ok]
    · rw [Schedule.exec, dif_neg hp]
      exact h2

/-- The locked section of `pr_task_exec_in_us`, entered with a task that is not
pending. -/
theorem execInLocked_represents {s : Sched ι} {a : Schedule ι Nat} (h : Represents handler s a)
    {t : ι} (hp : t ∉ a.pending) (d : Nat) {fuel : Nat} (hf : a.waiting.length < fuel) :
    ∃ s', execInLocked t d fuel s = .ok s' ∧ Represents handler s' (a.execIn t d) ∧
      SameAlarm s s' := by
  obtain ⟨s1, hrem, h1, ha1⟩ := unwait_represents h t (Nat.le_of_lt hf)
  have hlen : (a.unwait t).waiting.length ≤ a.waiting.length := List.length_filter_le _ _
  obtain ⟨s2, hins, h2, ha2⟩ := prTaskWaitQueueInsert_represents h1 (t := t) d hp
    (a.not_mem_sleepers_unwait t) (Nat.lt_of_le_of_lt hlen hf)
  refine ⟨s2, ?_, ?_, ha1.trans ha2⟩
  · rw [execInLocked, hrem, bind_ok, hins]
  · rw [Schedule.execIn, dif_neg hp]
    exact h2

theorem waitingProcessLocked_represents (now : Nat) {w : List (ι × Nat)} {fuel : Nat} :
    ∀ {s : Sched ι} {a : Schedule ι Nat}, Represents handler s a → a.waiting = w →
      w.length < fuel → ∃ s', waitingProcessLocked now fuel s = .ok s' ∧
        Represents handler s' (a.expire now) ∧ SameAlarm s s' := by
  induction w generalizing fuel with
  | nil =>
    intro s a h hw hf
    obtain ⟨fuel, rfl⟩ := Nat.exists_eq_add_one_of_ne_zero (Nat.ne_of_gt hf)
    have hhead : s.queue.waiting = none := by rw [h.waiting.start, Schedule.sleepers, hw]; rfl
    refine ⟨s, by rw [waitingProcessLocked, hhead], ?_, rfl, rfl⟩
    rw [Schedule.expire_idle (by rw [hw]; simp)]
    exact h
  | cons e w ih =>
    intro s a h hw hf
    obtain ⟨fuel, rfl⟩ := Nat.exists_eq_add_one_of_ne_zero (Nat.ne_of_gt (Nat.zero_lt_of_lt hf))
    obtain ⟨t, d⟩ := e
    have hsleep : a.sleepers = t :: w.map Prod.fst := by rw [Schedule.sleepers, hw]; rfl
    have hhead : s.queue.waiting = some t := by rw [h.waiting.start, hsleep]; rfl
    have hat : (s.tasks t).exec_at = d := h.exec_at (t, d) (by simp [hw])
    rw [waitingProcessLocked, hhead]
    by_cases hd : d ≤ now
    · -- The first task expires, and the loop goes on behind it.
      obtain ⟨s1, hpop, h1, ha1⟩ := prTaskWaitQueuePop_represents h hw
      have hp : t ∉ a.pending := Schedule.not_pending (by simp [hsleep])
      have h2 := prTaskPendingQueueInsert_represents h1 (t := t) hp (a.not_mem_sleepers_unwait t)
      have hrest := Schedule.waiting_unwait_head hw
      obtain ⟨s3, hloop, h3, ha3⟩ := ih h2 hrest (Nat.lt_of_succ_lt_succ hf)
      refine ⟨s3, ?_, ?_, (ha1.trans (prTaskPendingQueueInsert_sameAlarm t s1)).trans ha3⟩
      · simp only [hat, hd, if_true, hpop]
        exact hloop
      · have hexpire := Schedule.expire_next (b := (a.unwait t).append t hp
          (a.not_mem_sleepers_unwait t)) hw hd rfl hrest
        rwa [hexpire] at h3
    · -- The list is sorted, so no later task expires either.
      refine ⟨s, ?_, ?_, rfl, rfl⟩
      · simp only [hat, hd, if_false]
      · rw [Schedule.expire_idle (by simpa [hw] using hd)]
        exact h

/-! ## 2. The alarm -/

omit [DecidableEq ι] in
theorem Represents.alarm {s s' : Sched ι} {a : Schedule ι Nat} (h : Represents handler s a)
    (ht : s'.tasks = s.tasks) (hq : ∃ x, s'.queue = { s.queue with alarm := x }) :
    Represents handler s' a := by
  obtain ⟨x, hq⟩ := hq
  obtain ⟨q', tasks', alarms'⟩ := s'
  cases ht
  cases hq
  exact ⟨h.first, h.last, h.waiting, h.pending_flag, h.waiting_flag, h.exec_at, h.bound, h.handled⟩

omit [DecidableEq ι] in
theorem rescheduleCancel_lists (s : Sched ι) :
    (rescheduleCancel s).tasks = s.tasks ∧
      ∃ x, (rescheduleCancel s).queue = { s.queue with alarm := x } := by
  unfold rescheduleCancel
  split
  · exact ⟨rfl, -1, rfl⟩
  · exact ⟨rfl, s.queue.alarm, rfl⟩

omit [DecidableEq ι] in
/-- The alarm is set for the first waiting task. -/
theorem rescheduleArm_eq (sdk : Sdk) {s : Sched ι} {t : ι} (h : s.queue.waiting = some t) :
    ∃ s', rescheduleArm sdk s = .ok s' ∧ s'.tasks = s.tasks ∧
      s'.queue = { s.queue with alarm := sdk.alarmId s.alarms (s.tasks t).exec_at } ∧
      s'.alarms = (addAlarmAt sdk (s.tasks t).exec_at s).2.alarms := by
  refine ⟨{ (addAlarmAt sdk (s.tasks t).exec_at s).2 with queue := { s.queue with
    alarm := sdk.alarmId s.alarms (s.tasks t).exec_at } }, ?_, rfl, rfl, rfl⟩
  rw [rescheduleArm, h]
  simp only [addAlarmAt, h]

omit [DecidableEq ι] in
/-- Setting the alarm again does not touch the schedule. -/
theorem queueReschedule_represents (sdk : Sdk) {s : Sched ι} {a : Schedule ι Nat}
    (h : Represents handler s a) :
    ∃ s', queueReschedule sdk s = .ok s' ∧ Represents handler s' a := by
  obtain ⟨ht, hq⟩ := rescheduleCancel_lists s
  have h1 := h.alarm ht hq
  cases hw : (rescheduleCancel s).queue.waiting with
  | none => exact ⟨_, by rw [queueReschedule, hw, if_pos rfl], h1⟩
  | some t =>
    obtain ⟨s', harm, ht', hq', -⟩ := rescheduleArm_eq sdk hw
    exact ⟨s', by rw [queueReschedule, hw, if_neg (by simp), harm], h1.alarm ht' ⟨_, hq'⟩⟩

/-! ## 3. The calls -/

/-- The initial state: an initialised queue and initialised tasks, bound to it. -/
structure Fresh (handler : ι → Bool) (s : Sched ι) : Prop where
  queue : ∃ q, s.queue = prTaskQueueInit q
  tasks : ∀ t, s.tasks t = prTaskInit true (handler t)

omit [DecidableEq ι] in
theorem Fresh.represents {s : Sched ι} (h : Fresh handler s) : Represents handler s .empty := by
  obtain ⟨⟨q, hq⟩, ht⟩ := h
  refine ⟨?_, ?_, ?_, fun t => ?_, fun t => ?_, by simp [Schedule.empty], fun t => ?_, fun t => ?_⟩
  · rw [hq]
    rfl
  · rw [hq]
    rfl
  · rw [hq]
    rfl
  · rw [ht]
    simp [prTaskInit, Schedule.empty]
  · rw [ht]
    simp [prTaskInit, Schedule.empty, Schedule.sleepers]
  · rw [ht]
    rfl
  · rw [ht]
    rfl

/-- What a call does to the schedule, and its reply. -/
def Schedule.call (handler : ι → Bool) (a : Schedule ι Nat) (sdk : Sdk) :
    Call ι → Reply ι × Schedule ι Nat
  | .exec none => (.status (-1), a)
  | .exec (some t) => if handler t then (.status 0, a.exec t) else (.status (-1), a)
  | .execInUs t us => (.done, a.execIn t (sdk.makeTimeoutTimeUs us))
  | .execInMs t ms => (.done, a.execIn t (sdk.makeTimeoutTimeMs ms))
  | .alarm _ => (.done, a.expire sdk.getAbsoluteTime)
  | .pop => (.task a.pending.head?, a.pop)

/-- The same sequence of calls on an abstract schedule, with the replies that a user of the library
is to get. -/
def Schedule.calls (handler : ι → Bool) :
    List (Sdk × Call ι) → Schedule ι Nat → List (Reply ι) × Schedule ι Nat
  | [], a => ([], a)
  | (sdk, c) :: cs, a =>
    let (reply, a) := a.call handler sdk c
    let (replies, a) := Schedule.calls handler cs a
    (reply :: replies, a)

/-- The state in which a call takes the lists: an alarm that fires is disarmed
first, and forgotten. -/
def Call.ack (s : Sched ι) : Call ι → Sched ι
  | .alarm id =>
    { cancelAlarm id s with queue := { (cancelAlarm id s).queue with alarm := -1 } }
  | _ => s

/-- What a call that takes the schedule from `a` to `a'` does to the alarm:
nothing when the waiting list stays as it is, or else it sets it again at the
end. -/
def Rearms (handler : ι → Bool) (sdk : Sdk) (c : Call ι) (s s' : Sched ι)
    (a a' : Schedule ι Nat) : Prop :=
  (SameAlarm s s' ∧ a'.waiting = a.waiting) ∨
    ∃ s1, SameAlarm (c.ack s) s1 ∧ Represents handler s1 a' ∧ queueReschedule sdk s1 = .ok s'

theorem waiting_exec {a : Schedule ι Nat} {t : ι} (h : t ∉ a.sleepers) :
    (a.exec t).waiting = a.waiting := by
  unfold Schedule.exec
  split
  · rfl
  · show (a.unwait t).waiting = a.waiting
    rw [Schedule.unwait_of_not_mem h]

theorem prTaskExec_represents (sdk : Sdk) {s : Sched ι} {a : Schedule ι Nat}
    (h : Represents handler s a) (t : ι) (ht : handler t = true) {fuel : Nat}
    (hf : a.waiting.length < fuel) :
    ∃ s', prTaskExec sdk (some t) fuel s = .ok (0, s') ∧ Represents handler s' (a.exec t) ∧
      Rearms handler sdk (.exec (some t)) s s' a (a.exec t) := by
  obtain ⟨s1, hexec, h1, halarm⟩ := execLocked_represents h t (Nat.le_of_lt hf)
  obtain ⟨s2, hres, h2⟩ := queueReschedule_represents sdk h1
  have hhandler : (s.tasks t).handler = true := (h.handled t).trans ht
  by_cases hw : t ∈ a.sleepers
  · refine ⟨s2, ?_, h2, .inr ⟨s1, halarm, h1, hres⟩⟩
    simp [prTaskExec, hhandler, h.bound t, hexec, hw, hres]
  · refine ⟨s1, ?_, h1, .inl ⟨halarm, waiting_exec hw⟩⟩
    simp [prTaskExec, hhandler, h.bound t, hexec, hw]

theorem execIn_represents (sdk : Sdk) {s : Sched ι} {a : Schedule ι Nat}
    (h : Represents handler s a) (t : ι) (d : Nat) {fuel : Nat} (hf : a.waiting.length < fuel) :
    ∃ s', execIn sdk t d fuel s = .ok s' ∧ Represents handler s' (a.execIn t d) ∧
      ((SameAlarm s s' ∧ (a.execIn t d).waiting = a.waiting) ∨ ∃ s1, SameAlarm s s1 ∧
        Represents handler s1 (a.execIn t d) ∧ queueReschedule sdk s1 = .ok s') := by
  by_cases hp : t ∈ a.pending
  · have hsame : a.execIn t d = a := by rw [Schedule.execIn, dif_pos hp]
    rw [hsame]
    refine ⟨s, ?_, h, .inl ⟨⟨rfl, rfl⟩, rfl⟩⟩
    rw [execIn, is_pending h, decide_eq_true hp, if_pos rfl]
  · obtain ⟨s1, hin, h1, halarm⟩ := execInLocked_represents h hp d hf
    obtain ⟨s2, hres, h2⟩ := queueReschedule_represents sdk h1
    refine ⟨s2, ?_, h2, .inr ⟨s1, halarm, h1, hres⟩⟩
    simp [execIn, is_pending h, hp, h.bound t, hin, hres]

theorem ptaskAlarm_represents (sdk : Sdk) (id : Int) {s : Sched ι} {a : Schedule ι Nat}
    (h : Represents handler s a) {fuel : Nat} (hf : a.waiting.length < fuel) :
    ∃ s', ptaskAlarm sdk id fuel s = .ok s' ∧
      Represents handler s' (a.expire sdk.getAbsoluteTime) ∧
      Rearms handler sdk (.alarm id) s s' a (a.expire sdk.getAbsoluteTime) := by
  have h0 : Represents handler (Call.ack s (.alarm id)) a := h.alarm rfl ⟨-1, rfl⟩
  obtain ⟨s1, hproc, h1, halarm⟩ :=
    waitingProcessLocked_represents sdk.getAbsoluteTime h0 rfl hf
  obtain ⟨s2, hres, h2⟩ := queueReschedule_represents sdk h1
  refine ⟨s2, ?_, h2, .inr ⟨s1, halarm, h1, hres⟩⟩
  rw [Call.ack] at hproc
  rw [ptaskAlarm, queueWaitingProcess, hproc, bind_ok, hres]

/-- One call, given enough fuel for the waiting list, acts on the schedule. -/
theorem call_represents (sdk : Sdk) (c : Call ι) {s : Sched ι} {a : Schedule ι Nat}
    (h : Represents handler s a) {fuel : Nat} (hf : a.waiting.length < fuel) :
    ∃ s', c.run sdk fuel s = .ok ((a.call handler sdk c).1, s') ∧
      Represents handler s' (a.call handler sdk c).2 ∧
      Rearms handler sdk c s s' a (a.call handler sdk c).2 := by
  cases c with
  | exec task =>
    cases task with
    | none => exact ⟨s, rfl, h, .inl ⟨⟨rfl, rfl⟩, rfl⟩⟩
    | some t =>
      cases ht : handler t with
      | false =>
        have hhandler : (s.tasks t).handler = false := (h.handled t).trans ht
        have hcall : a.call handler sdk (.exec (some t)) = (.status (-1), a) := by
          simp [Schedule.call, ht]
        rw [hcall]
        refine ⟨s, ?_, h, .inl ⟨⟨rfl, rfl⟩, rfl⟩⟩
        simp [Call.run, prTaskExec, hhandler]
      | true =>
        have hcall : a.call handler sdk (.exec (some t)) = (.status 0, a.exec t) := by
          simp [Schedule.call, ht]
        rw [hcall]
        obtain ⟨s', hexec, h'⟩ := prTaskExec_represents sdk h t ht hf
        exact ⟨s', by simp [Call.run, hexec], h'⟩
  | execInUs t us =>
    obtain ⟨s', hexec, h'⟩ := execIn_represents sdk h t (sdk.makeTimeoutTimeUs us) hf
    exact ⟨s', by rw [Call.run, prTaskExecInUs, hexec, bind_ok]; rfl, h'⟩
  | execInMs t ms =>
    obtain ⟨s', hexec, h'⟩ := execIn_represents sdk h t (sdk.makeTimeoutTimeMs ms) hf
    exact ⟨s', by rw [Call.run, prTaskExecInMs, hexec, bind_ok]; rfl, h'⟩
  | alarm id =>
    obtain ⟨s', halarm, h'⟩ := ptaskAlarm_represents sdk id h hf
    exact ⟨s', by rw [Call.run, halarm, bind_ok]; rfl, h'⟩
  | pop =>
    obtain ⟨hhead, h', halarm⟩ := prTaskPendingQueuePop_represents h
    exact ⟨(prTaskPendingQueuePop s).2, by simp only [Call.run, hhead, Schedule.call], h',
      .inl ⟨halarm, rfl⟩⟩

theorem length_waiting_call (handler : ι → Bool) (a : Schedule ι Nat) (sdk : Sdk) (c : Call ι) :
    (a.call handler sdk c).2.waiting.length ≤ a.waiting.length + 1 := by
  have hunwait : ∀ t, (a.unwait t).waiting.length ≤ a.waiting.length := fun t =>
    List.length_filter_le _ _
  have hexecIn : ∀ t d, (a.execIn t d).waiting.length ≤ a.waiting.length + 1 := by
    intro t d
    unfold Schedule.execIn
    split
    · exact Nat.le_succ _
    · refine (Nat.le_of_eq (List.orderedInsert_length _ _ _)).trans ?_
      exact Nat.succ_le_succ (hunwait t)
  have hexec : ∀ t, (a.exec t).waiting.length ≤ a.waiting.length + 1 := by
    intro t
    unfold Schedule.exec
    split
    · exact Nat.le_succ _
    · exact Nat.le_succ_of_le (hunwait t)
  cases c with
  | exec task =>
    cases task with
    | none => exact Nat.le_succ _
    | some t =>
      cases ht : handler t with
      | false => simp [Schedule.call, ht]
      | true => simpa [Schedule.call, ht] using hexec t
  | execInUs t us => exact hexecIn t _
  | execInMs t ms => exact hexecIn t _
  | alarm id => exact Nat.le_succ_of_le (List.length_filter_le _ _)
  | pop => exact Nat.le_succ _

/-- Calls from a state that holds a schedule. The fuel covers the waiting list at
every call. -/
theorem runCalls_represents (cs : List (Sdk × Call ι)) :
    ∀ {s : Sched ι} {a : Schedule ι Nat} {fuel : Nat}, Represents handler s a →
      a.waiting.length + cs.length < fuel →
      ∃ s', runCalls fuel cs s = .ok ((Schedule.calls handler cs a).1, s') ∧
        Represents handler s' (Schedule.calls handler cs a).2 := by
  induction cs with
  | nil => exact fun h _ => ⟨_, rfl, h⟩
  | cons e cs ih =>
    intro s a fuel h hf
    obtain ⟨sdk, c⟩ := e
    rw [List.length_cons] at hf
    have hlen := length_waiting_call handler a sdk c
    have hnow : a.waiting.length < fuel := by omega
    have hlater : (a.call handler sdk c).2.waiting.length + cs.length < fuel := by omega
    obtain ⟨s1, hcall, h1, -⟩ := call_represents sdk c h hnow
    obtain ⟨s2, hcalls, h2⟩ := ih h1 hlater
    refine ⟨s2, ?_, h2⟩
    simp only [runCalls, hcall, bind_ok, hcalls]
    rfl

theorem runCalls_keeps {fuel : Nat} {cs : List (Sdk × Call ι)} {s s' : Sched ι}
    {replies : List (Reply ι)} {a : Schedule ι Nat} (h : Represents handler s a)
    (hrun : runCalls fuel cs s = .ok (replies, s')) : ∃ a', Represents handler s' a' := by
  induction cs generalizing s a replies with
  | nil =>
    obtain ⟨-, rfl⟩ := Prod.mk.inj (Except.ok.inj hrun)
    exact ⟨a, h⟩
  | cons e cs ih =>
    obtain ⟨⟨reply, s1⟩, hcall, hrest⟩ := bind_eq_ok.mp hrun
    obtain ⟨⟨rest, s2⟩, hcalls, hret⟩ := bind_eq_ok.mp hrest
    obtain ⟨-, rfl⟩ := Prod.mk.inj (Except.ok.inj hret)
    obtain ⟨s3, hcall', h1, -⟩ := call_represents e.1 e.2 h (Nat.lt_succ_self _)
    obtain ⟨-, rfl⟩ := Prod.mk.inj
      ((e.2.run_fueled e.1 s).returns_unique ⟨fuel, hcall⟩ ⟨_, hcall'⟩)
    exact ih h1 hcalls

/-- The scheduler refines the schedule. From initialised tasks on one queue, every
sequence of calls returns. Its replies are those of the schedule, and the lists,
the flags and the deadlines that it leaves represent the schedule. -/
theorem scheduler_refines (handler : ι → Bool) (s : Sched ι) (hs : Fresh handler s)
    (cs : List (Sdk × Call ι)) :
    ∃ s', Returns (fun fuel => runCalls fuel cs s) ((Schedule.calls handler cs .empty).1, s') ∧
      Represents handler s' (Schedule.calls handler cs .empty).2 := by
  obtain ⟨s', hrun, h'⟩ := runCalls_represents cs hs.represents (Nat.lt_succ_self _)
  exact ⟨s', ⟨_, hrun⟩, h'⟩

/-! ## 4. The pending tasks -/

theorem pending_exec (a : Schedule ι Nat) (t : ι) :
    (a.exec t).pending = if t ∈ a.pending then a.pending else a.pending ++ [t] := by
  unfold Schedule.exec
  split
  · rfl
  · rfl

theorem mem_pending_exec (a : Schedule ι Nat) (t : ι) : t ∈ (a.exec t).pending := by
  rw [pending_exec]
  split
  · assumption
  · simp

theorem pending_execIn (a : Schedule ι Nat) (t : ι) (d : Nat) :
    (a.execIn t d).pending = a.pending := by
  unfold Schedule.execIn
  split
  · rfl
  · rfl

/-- A call on a queue that holds a schedule acts on the schedule. -/
theorem call_of_represents {s s' : Sched ι} {a : Schedule ι Nat} (h : Represents handler s a)
    {sdk : Sdk} {c : Call ι} {reply : Reply ι}
    (hrun : Returns (fun fuel => c.run sdk fuel s) (reply, s')) :
    reply = (a.call handler sdk c).1 ∧ Represents handler s' (a.call handler sdk c).2 := by
  obtain ⟨s1, hrun1, h1, -⟩ := call_represents sdk c h (Nat.lt_succ_self _)
  obtain ⟨rfl, rfl⟩ := Prod.mk.inj ((Call.run_fueled sdk c s).returns_unique hrun ⟨_, hrun1⟩)
  exact ⟨rfl, h1⟩

/-- Only the scheduler takes a task out of the pending ones. -/
theorem pending_call (handler : ι → Bool) (a : Schedule ι Nat) (sdk : Sdk) {c : Call ι}
    (hc : c ≠ .pop) : ∃ ts, (a.call handler sdk c).2.pending = a.pending ++ ts := by
  cases c with
  | exec task =>
    cases task with
    | none => exact ⟨[], (List.append_nil _).symm⟩
    | some t =>
      rw [Schedule.call]
      split
      · show ∃ ts, (a.exec t).pending = _
        rw [pending_exec]
        split
        · exact ⟨[], (List.append_nil _).symm⟩
        · exact ⟨[t], rfl⟩
      · exact ⟨[], (List.append_nil _).symm⟩
  | execInUs t us => exact ⟨[], (pending_execIn a t _).trans (List.append_nil _).symm⟩
  | execInMs t ms => exact ⟨[], (pending_execIn a t _).trans (List.append_nil _).symm⟩
  | alarm id => exact ⟨_, rfl⟩
  | pop => exact absurd rfl hc

theorem mem_pending_call {a : Schedule ι Nat} {t : ι} (sdk : Sdk) {c : Call ι} (hc : c ≠ .pop)
    (ht : t ∈ a.pending) : t ∈ (a.call handler sdk c).2.pending := by
  obtain ⟨ts, hts⟩ := pending_call handler a sdk hc
  rw [hts]
  exact List.mem_append_left ts ht

omit [DecidableEq ι] in
/-- The scheduler takes out the first pending task, so every other one is still pending after it. -/
theorem mem_pending_pop {a : Schedule ι Nat} {t : ι} (ht : t ∈ a.pending)
    (hne : a.pending.head? ≠ some t) : t ∈ a.pop.pending := by
  show t ∈ a.pending.tail
  cases hp : a.pending with
  | nil =>
    rw [hp] at ht
    cases ht
  | cons u p =>
    rw [hp] at ht hne
    cases ht with
    | head => exact absurd rfl hne
    | tail _ h1 => exact h1

namespace RefineLemmas

/-- Two tasks on a queue that has just been initialised. -/
def start : Sched Bool where
  queue := prTaskQueueInit ⟨none, none, none, -1⟩
  tasks _ := prTaskInit true true
  alarms := []

/-- The SDK at a given time. Delays are not rounded, and a new id is larger than
every armed one. -/
def sdkAt (now : Nat) : Sdk where
  getAbsoluteTime := now
  makeTimeoutTimeUs us := now + us
  makeTimeoutTimeMs ms := now + 1000 * ms
  alarmId as _ := ((as.map fun a => a.1.natAbs).sum + 1 : Nat)

theorem fresh_start : Fresh (fun _ => true) start := ⟨⟨_, rfl⟩, fun _ => rfl⟩

/-- A delayed task expires behind one that was asked for at once. -/
def demo : List (Sdk × Call Bool) :=
  [(sdkAt 0, .execInUs false 10), (sdkAt 5, .exec (some true)), (sdkAt 10, .alarm 1),
    (sdkAt 11, .pop)]

end RefineLemmas

open RefineLemmas in
theorem scheduler_refines_demo :
    Fresh (fun _ => true) start ∧
    ∃ s', Returns (fun fuel => runCalls fuel demo start)
        ([.done, .status 0, .done, .task (some true)], s') ∧
      Represents (fun _ => true) s' (Schedule.calls (fun _ => true) demo .empty).2 :=
  ⟨fresh_start, scheduler_refines (fun _ => true) start fresh_start demo⟩

end Picore.Task
