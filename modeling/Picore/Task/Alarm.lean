import Picore.Task.Refine
import Picore.Lib.Transition
import Mathlib.Order.Bounds.Basic
import Mathlib.Algebra.Order.BigOperators.Group.List
import Mathlib.Algebra.Order.Group.Nat

/-!
# The alarm of a queue

The queue has one alarm, for the first waiting task. Four paths change the head
of the waiting list: an insertion in front of it, its removal by `pr_task_exec`,
a new deadline for it, and its expiry.

Results:
1. `queueReschedule_alarm`: setting the alarm again leaves the alarm of the first
   waiting task armed, and no other.
2. `call_alarm`: every call keeps this.
3. `one_alarm`: it holds after every sequence of calls and alarms.
-/

namespace Picore.Task

open Fuel Chain Transition

variable {ι : Type} [DecidableEq ι] {handler : ι → Bool}

def Sched.armed (s : Sched ι) : List Int := s.alarms.map Prod.fst

/-- `add_alarm_at` returns a positive id that is not armed. -/
def Sdk.FreshIds (sdk : Sdk) : Prop :=
  ∀ as time, 0 < sdk.alarmId as time ∧ sdk.alarmId as time ∉ as.map Prod.fst

/-- A call that can be made in this state. An alarm fires only while it is armed, and all other
calls are free. -/
def Call.Enabled (s : Sched ι) : Call ι → Prop
  | .alarm id => id ∈ s.alarms.map Prod.fst
  | _ => True

/-- Calls and alarms on one queue, one at a time. `alarm` is `-1` and no alarm is
armed before the first call. -/
def alarmSystem (handler : ι → Bool) : Lts (Sched ι) (Sdk × Call ι) where
  init s := Fresh handler s ∧ s.queue.alarm = -1 ∧ s.alarms = []
  step s l s' := l.1.FreshIds ∧ l.2.Enabled s ∧
    ∃ reply, Returns (fun fuel => l.2.run l.1 fuel s) (reply, s')

/-- The alarm that is due, if any, is the only one armed. -/
def AlarmFor (time : Option Nat) (s : Sched ι) : Prop :=
  match time with
  | none => s.queue.alarm = -1 ∧ s.alarms = []
  | some d => 0 < s.queue.alarm ∧ s.alarms = [(s.queue.alarm, d)]

def Schedule.firstDeadline (a : Schedule ι Nat) : Option Nat := a.waiting.head?.map Prod.snd

/-! ## 1. Setting the alarm again -/

omit [DecidableEq ι] in
theorem mem_armed_cancel {id id' : Int} {s : Sched ι} :
    id' ∈ (cancelAlarm id s).armed ↔ id' ∈ s.armed ∧ id' ≠ id := by
  simp only [Sched.armed, cancelAlarm, List.mem_map, List.mem_filter, decide_eq_true_eq]
  constructor
  · rintro ⟨a, ⟨ha, hne⟩, rfl⟩
    exact ⟨⟨a, ha, rfl⟩, hne⟩
  · rintro ⟨⟨a, ha, rfl⟩, hne⟩
    exact ⟨a, ⟨ha, hne⟩, rfl⟩

omit [DecidableEq ι] in
theorem SameAlarm.armed {s s' : Sched ι} (h : SameAlarm s s') : s'.armed = s.armed :=
  congrArg (List.map Prod.fst) h.2

omit [DecidableEq ι] in
/-- The arming makes the new alarm, if there is one, that of the queue. -/
theorem rescheduleArm_armed {sdk : Sdk} {s s' : Sched ι} (h : rescheduleArm sdk s = .ok s') :
    s.queue.waiting ≠ none ∧ s'.queue.waiting = s.queue.waiting ∧
      (∀ id ∈ s'.armed, s'.queue.alarm = id ∧ 0 < id ∨ id ∈ s.armed) ∧
      (∀ id ∈ s.armed, id ∈ s'.armed) ∧ (0 < s'.queue.alarm → s'.queue.alarm ∈ s'.armed) ∧
      (∃ time, s'.queue.alarm = sdk.alarmId s.alarms time) := by
  cases hw : s.queue.waiting with
  | none => simp [rescheduleArm, hw] at h
  | some t =>
    obtain ⟨s1, harm, -, hqueue, halarms⟩ := rescheduleArm_eq sdk hw
    rw [harm] at h
    obtain rfl := Except.ok.inj h
    have hid : s1.queue.alarm = sdk.alarmId s.alarms (s.tasks t).exec_at := by rw [hqueue]
    have hcases : ¬ 0 < s1.queue.alarm ∧ s1.armed = s.armed ∨
        0 < s1.queue.alarm ∧ s1.armed = s1.queue.alarm :: s.armed := by
      rw [Sched.armed, halarms, hid, addAlarmAt]
      dsimp only
      split
      · next hpos => exact .inr ⟨hpos, rfl⟩
      · next hneg => exact .inl ⟨hneg, rfl⟩
    have hwaiting : s1.queue.waiting = some t := by rw [hqueue, hw]
    refine ⟨Option.some_ne_none t, hwaiting, ?_⟩
    rcases hcases with ⟨hneg, heq⟩ | ⟨hpos, heq⟩
    · rw [heq]
      exact ⟨fun id h1 => .inr h1, fun id h1 => h1, fun hpos => absurd hpos hneg, _, hid⟩
    · rw [heq]
      refine ⟨fun id h1 => ?_, fun id h1 => List.mem_cons_of_mem _ h1,
        fun _ => List.mem_cons_self, _, hid⟩
      rcases List.mem_cons.mp h1 with rfl | hold
      · exact .inl ⟨rfl, hpos⟩
      · exact .inr hold

omit [DecidableEq ι] in
theorem AlarmFor.same {time : Option Nat} {s s' : Sched ι} (h : AlarmFor time s)
    (hs : SameAlarm s s') : AlarmFor time s' := by
  cases time with
  | none => exact ⟨hs.1.trans h.1, hs.2.trans h.2⟩
  | some d =>
    refine ⟨hs.1 ▸ h.1, ?_⟩
    rw [hs.2, hs.1]
    exact h.2

omit [DecidableEq ι] in
theorem rescheduleCancel_alarm {time : Option Nat} {s : Sched ι} (h : AlarmFor time s) :
    AlarmFor none (rescheduleCancel s) := by
  cases time with
  | none =>
    have hneg : ¬s.queue.alarm ≥ 0 := by rw [h.1]; decide
    rw [rescheduleCancel, if_neg hneg]
    exact h
  | some d =>
    obtain ⟨hpos, harmed⟩ := h
    rw [rescheduleCancel, if_pos hpos.le]
    exact ⟨rfl, by simp [cancelAlarm, harmed]⟩

omit [DecidableEq ι] in
/-- After the alarm is set again, the one for the first waiting task is armed. -/
theorem queueReschedule_alarm {sdk : Sdk} (hsdk : sdk.FreshIds) {s s' : Sched ι}
    {a : Schedule ι Nat} (h : Represents handler s a) {time : Option Nat} (ha : AlarmFor time s)
    (hres : queueReschedule sdk s = .ok s') : AlarmFor a.firstDeadline s' := by
  have hcancel := rescheduleCancel_alarm ha
  obtain ⟨ht, hq⟩ := rescheduleCancel_lists s
  have h1 := h.alarm ht hq
  have hhead : (rescheduleCancel s).queue.waiting = a.sleepers.head? := h1.waiting.start
  cases hw : a.waiting with
  | nil =>
    have hnone : (rescheduleCancel s).queue.waiting = none := by
      rw [hhead, Schedule.sleepers, hw]
      rfl
    rw [queueReschedule, if_pos hnone] at hres
    cases hres
    rw [Schedule.firstDeadline, hw]
    exact hcancel
  | cons e w =>
    have hsome : (rescheduleCancel s).queue.waiting = some e.1 := by
      rw [hhead, Schedule.sleepers, hw]
      rfl
    have hat : ((rescheduleCancel s).tasks e.1).exec_at = e.2 := h1.exec_at e (by simp [hw])
    obtain ⟨s2, harm, -, hqueue, halarms⟩ := rescheduleArm_eq sdk hsome
    rw [queueReschedule, if_neg (by simp [hsome]), harm] at hres
    cases hres
    -- No alarm is armed any more, so the new one is the only one.
    obtain ⟨hpos, -⟩ := hsdk [] e.2
    rw [hat, hcancel.2] at hqueue
    rw [Schedule.firstDeadline, hw]
    refine ⟨by rw [hqueue]; exact hpos, ?_⟩
    rw [halarms, hqueue, hat]
    simp only [addAlarmAt, hcancel.2, if_pos hpos]

/-! ## 2. One call -/

omit [DecidableEq ι] in
/-- An alarm that fires is the one that was armed. -/
theorem ack_alarm {s : Sched ι} {time : Option Nat} (ha : AlarmFor time s) (c : Call ι)
    (hc : c.Enabled s) : ∃ time', AlarmFor time' (c.ack s) := by
  cases c with
  | alarm id =>
    refine ⟨none, rfl, ?_⟩
    cases time with
    | none => exact absurd hc (by simp [Call.Enabled, ha.2])
    | some d =>
      have hid : id = s.queue.alarm := by simpa [Call.Enabled, ha.2] using hc
      simp [Call.ack, cancelAlarm, ha.2, hid]
  | _ => exact ⟨time, ha⟩

omit [DecidableEq ι] in
/-- Every call leaves the alarm of the first waiting task armed. -/
theorem call_alarm {sdk : Sdk} (hsdk : sdk.FreshIds) {c : Call ι} {s s' : Sched ι}
    {a a' : Schedule ι Nat} (hc : c.Enabled s) (ha : AlarmFor a.firstDeadline s)
    (hr : Rearms handler sdk c s s' a a') : AlarmFor a'.firstDeadline s' := by
  rcases hr with ⟨hsame, hw⟩ | ⟨s1, hsame, h1, hres⟩
  · rw [Schedule.firstDeadline, hw]
    exact ha.same hsame
  · obtain ⟨time, hack⟩ := ack_alarm ha c hc
    exact queueReschedule_alarm hsdk h1 (hack.same hsame) hres

/-! ## 3. Every sequence of calls -/

/-- The waiting list has nodes, and `time` is the earliest of their deadlines. -/
def EarliestDeadline (s : Sched ι) (time : Nat) : Prop :=
  ∃ l, s.waitLinks.Holds l ∧ IsLeast {d | ∃ t ∈ l, (s.tasks t).exec_at = d} time

omit [DecidableEq ι] in
theorem Represents.earliest {s : Sched ι} {a : Schedule ι Nat} (h : Represents handler s a)
    {time : Nat} (htime : a.firstDeadline = some time) : EarliestDeadline s time := by
  refine ⟨a.sleepers, h.waiting, ?_, ?_⟩
  · obtain ⟨e, he, rfl⟩ := Option.map_eq_some_iff.mp htime
    have hmem : e ∈ a.waiting := List.mem_of_head? he
    exact ⟨e.1, List.mem_map_of_mem hmem, h.exec_at e hmem⟩
  · rintro d ⟨t, ht, rfl⟩
    obtain ⟨e, he, rfl⟩ := List.mem_map.mp ht
    rw [h.exec_at e he]
    have hsorted := a.sorted
    cases hw : a.waiting with
    | nil => simp [hw] at he
    | cons f w =>
      rw [hw] at he hsorted
      obtain rfl : f.2 = time := by simpa [Schedule.firstDeadline, hw] using htime
      rcases List.mem_cons.mp he with rfl | he
      · exact le_rfl
      · exact List.rel_of_pairwise_cons hsorted he

/-- In every reachable state the lists hold a schedule whose first deadline has
its alarm. -/
theorem alarmSystem_invariant {s : Sched ι} (h : (alarmSystem handler).Reachable s) :
    ∃ a, Represents handler s a ∧ AlarmFor a.firstDeadline s := by
  refine h.invariant (I := fun s => ∃ a, Represents handler s a ∧ AlarmFor a.firstDeadline s) ?_ ?_
  · rintro s ⟨hfresh, halarm⟩
    exact ⟨.empty, hfresh.represents, halarm⟩
  · rintro s ⟨sdk, c⟩ s' ⟨a, hrep, ha⟩ ⟨hsdk, hc, reply, hret⟩
    obtain ⟨s1, hrun, h1, hrearm⟩ := call_represents sdk c hrep (Nat.lt_succ_self _)
    obtain ⟨-, rfl⟩ := Prod.mk.inj ((c.run_fueled sdk s).returns_unique hret ⟨_, hrun⟩)
    exact ⟨_, h1, call_alarm hsdk hc ha hrearm⟩

/-- After every sequence of calls and alarms, either no task waits and no alarm is
armed, or one alarm is armed: `queue->alarm`, for the earliest deadline of the
waiting tasks. Every further call returns. -/
theorem one_alarm (handler : ι → Bool) {s : Sched ι} (h : (alarmSystem handler).Reachable s) :
    (s.queue.waiting = none ∧ s.alarms = [] ∨
      ∃ id time, s.alarms = [(id, time)] ∧ s.queue.alarm = id ∧ EarliestDeadline s time) ∧
    ∀ sdk c, sdk.FreshIds → Call.Enabled s c → ∃ s', (alarmSystem handler).step s (sdk, c) s' := by
  obtain ⟨a, hrep, ha⟩ := alarmSystem_invariant h
  constructor
  · cases hw : a.firstDeadline with
    | none =>
      rw [hw] at ha
      have hnil : a.waiting = [] := by simpa [Schedule.firstDeadline] using hw
      refine .inl ⟨?_, ha.2⟩
      rw [hrep.waiting.start, Schedule.sleepers, hnil]
      rfl
    | some time =>
      rw [hw] at ha
      exact .inr ⟨_, time, ha.2, rfl, hrep.earliest hw⟩
  · intro sdk c hsdk hc
    obtain ⟨s', hrun, -⟩ := call_represents sdk c hrep (Nat.lt_succ_self _)
    exact ⟨s', hsdk, hc, _, _, hrun⟩

namespace AlarmLemmas

open RefineLemmas

theorem freshIds_sdkAt (now : Nat) : (sdkAt now).FreshIds := by
  intro as time
  refine ⟨Int.natCast_pos.mpr (Nat.succ_pos _), fun hmem => ?_⟩
  obtain ⟨a, ha, hid⟩ := List.mem_map.mp hmem
  have hle : a.1.natAbs ≤ (as.map fun a => a.1.natAbs).sum :=
    List.le_sum_of_mem (List.mem_map_of_mem ha)
  have habs : a.1.natAbs = (as.map fun a => a.1.natAbs).sum + 1 := by
    rw [hid]
    rfl
  omega

/-- The state after a call from the initial state. -/
def delayed : Sched Bool :=
  match Call.run (sdkAt 0) 2 start (.execInUs false 10) with
  | .ok (_, s) => s
  | .error _ => start

theorem reachable_delayed : (alarmSystem fun _ => true).Reachable delayed :=
  .step (a := (sdkAt 0, .execInUs false 10)) (.init ⟨fresh_start, rfl, rfl⟩)
    ⟨freshIds_sdkAt 0, trivial, .done, 2, rfl⟩

end AlarmLemmas

open RefineLemmas AlarmLemmas in
/-- After one task with a delay the alarm is armed for its deadline. -/
theorem one_alarm_delayed :
    (alarmSystem fun _ => true).Reachable delayed ∧ delayed.alarms = [(1, 10)] ∧
    (delayed.queue.waiting = none ∧ delayed.alarms = [] ∨
      ∃ id time, delayed.alarms = [(id, time)] ∧ delayed.queue.alarm = id ∧
        EarliestDeadline delayed time) ∧
    ∀ sdk c, sdk.FreshIds → Call.Enabled delayed c →
      ∃ s', (alarmSystem fun _ => true).step delayed (sdk, c) s' :=
  ⟨reachable_delayed, rfl, one_alarm (fun _ => true) reachable_delayed⟩

end Picore.Task
