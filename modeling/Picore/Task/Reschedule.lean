import Picore.Task.Alarm
import Picore.Task.Frame
import Picore.Task.Interleave

/-!
# `queue_reschedule` without the lock

`queue_reschedule` reads `queue->alarm` and `queue->waiting`, and writes `-1` to
`queue->alarm`, without the lock of the queue; only the arming is locked. Here each of these
accesses is a step of its own, so that another context may come in between any two of them.
The callback of an alarm that is due while it is armed is not run inside `add_alarm_at`.

Results:
1. `Pc`, `Step`, `rescheduling`: the contexts on one queue.
2. `sound_step`, `alone_of_sound`: a step keeps `Sound` iff it meets `Alone`.
3. `reschedule_sound`: the arming finds a waiting task, and no armed alarm is forgotten, in
   every run whose steps meet `Alone`. `reschedule_interrupted`: runs that do not.
-/

namespace Picore.Task.Reschedule

open Fuel Transition

variable {κ ι : Type} [DecidableEq κ] [DecidableEq ι] {handler : ι → Bool}

/-! ## 1. The steps -/

/-- Where a context stands in a call. `queue_reschedule` has a point before each of its accesses to
`queue->alarm` and `queue->waiting`. -/
inductive Pc (ι : Type)
  | idle
  /-- `pr_task_exec_in_us` or `pr_task_exec_in_ms` has found the task not pending. -/
  | tested (task : ι)
  /-- The alarm has fired, and `ptask_alarm` starts. -/
  | fired
  /-- `ptask_alarm` has forgotten the alarm. -/
  | expiring
  /-- At the start of `queue_reschedule`. -/
  | reschedule
  /-- `queue_reschedule` has found an alarm. -/
  | found
  /-- It has read `queue->alarm` for `cancel_alarm`. -/
  | cancelling (id : Int)
  /-- `cancel_alarm` has returned. -/
  | cancelled
  /-- It is done with the old alarm. -/
  | checking
  /-- It has found a waiting task. -/
  | arming

/-- The queue with its tasks, and where each context stands. -/
structure Contexts (κ ι : Type) where
  sched : Sched ι
  pc : κ → Pc ι

/-- The state after a step of the context `k`. -/
def Contexts.to (s : Contexts κ ι) (k : κ) (pc : Pc ι) (sched : Sched ι) : Contexts κ ι where
  sched := sched
  pc := Function.update s.pc k pc

/-- The labels of the steps: locked sections, the unlocked test of the pending flag, both halves of
the alarm, and each access of `queue_reschedule`. -/
inductive Act (ι : Type)
  | exec (task : ι)
  | test (task : ι)
  | enter (deadline : Nat)
  | fire (id : Int)
  | forget
  | expire (now : Nat)
  | readAlarm
  | readId
  | cancel
  | clear
  | readWaiting
  | arm (sdk : Sdk)
  | pop

/-- `queue->alarm = -1`. -/
def clearAlarm (s : Sched ι) : Sched ι := { s with queue := { s.queue with alarm := -1 } }

/-- One step of one context. What `queue_reschedule` has read is kept in `Pc`, so another context
may change it before it is used. -/
inductive Step : Contexts κ ι → κ × Act ι → Contexts κ ι → Prop
  /-- The locked section of `pr_task_exec`. -/
  | exec {s : Contexts κ ι} {k : κ} {task : ι} {reschedule : Bool} {sched : Sched ι} :
      s.pc k = .idle → (s.sched.tasks task).handler = true → (s.sched.tasks task).queue = true →
      Returns (fun fuel => execLocked task fuel s.sched) (reschedule, sched) →
      Step s (k, .exec task) (s.to k (if reschedule then .reschedule else .idle) sched)
  /-- The unlocked `is_pending` of `pr_task_exec_in_us` and `pr_task_exec_in_ms`. -/
  | test {s : Contexts κ ι} {k : κ} {task : ι} : s.pc k = .idle →
      Step s (k, .test task)
        (s.to k (if (s.sched.tasks task).pending then .idle else .tested task) s.sched)
  /-- Their locked section. -/
  | enter {s : Contexts κ ι} {k : κ} {task : ι} {deadline : Nat} {sched : Sched ι} :
      s.pc k = .tested task → (s.sched.tasks task).queue = true →
      Returns (fun fuel => execInLocked task deadline fuel s.sched) sched →
      Step s (k, .enter deadline) (s.to k .reschedule sched)
  /-- An armed alarm fires. -/
  | fire {s : Contexts κ ι} {k : κ} {id : Int} : s.pc k = .idle → id ∈ s.sched.armed →
      Step s (k, .fire id) (s.to k .fired (cancelAlarm id s.sched))
  /-- `queue->alarm = -1` in `ptask_alarm`. -/
  | forget {s : Contexts κ ι} {k : κ} : s.pc k = .fired →
      Step s (k, .forget) (s.to k .expiring (clearAlarm s.sched))
  /-- The locked section of `queue_waiting_process`. -/
  | expire {s : Contexts κ ι} {k : κ} {now : Nat} {sched : Sched ι} : s.pc k = .expiring →
      Returns (fun fuel => waitingProcessLocked now fuel s.sched) sched →
      Step s (k, .expire now) (s.to k .reschedule sched)
  /-- `if (queue->alarm >= 0)`. -/
  | readAlarm {s : Contexts κ ι} {k : κ} : s.pc k = .reschedule →
      Step s (k, .readAlarm)
        (s.to k (if s.sched.queue.alarm ≥ 0 then .found else .checking) s.sched)
  /-- The argument of `cancel_alarm(queue->alarm)`. -/
  | readId {s : Contexts κ ι} {k : κ} : s.pc k = .found →
      Step s (k, .readId) (s.to k (.cancelling s.sched.queue.alarm) s.sched)
  /-- `cancel_alarm`. -/
  | cancel {s : Contexts κ ι} {k : κ} {id : Int} : s.pc k = .cancelling id →
      Step s (k, .cancel) (s.to k .cancelled (cancelAlarm id s.sched))
  /-- `queue->alarm = -1` in `queue_reschedule`. -/
  | clear {s : Contexts κ ι} {k : κ} : s.pc k = .cancelled →
      Step s (k, .clear) (s.to k .checking (clearAlarm s.sched))
  /-- `if (!queue->waiting)`. -/
  | readWaiting {s : Contexts κ ι} {k : κ} : s.pc k = .checking →
      Step s (k, .readWaiting)
        (s.to k (if s.sched.queue.waiting = none then .idle else .arming) s.sched)
  /-- The locked section of `queue_reschedule`. `add_alarm_at` returns no id that is armed. -/
  | arm {s : Contexts κ ι} {k : κ} {sdk : Sdk} {sched : Sched ι} : s.pc k = .arming →
      (∀ time, sdk.alarmId s.sched.alarms time ∉ s.sched.armed) →
      rescheduleArm sdk s.sched = .ok sched → Step s (k, .arm sdk) (s.to k .idle sched)
  /-- The locked section of `pr_task_queue_run_until_empty`. -/
  | pop {s : Contexts κ ι} {k : κ} : s.pc k = .idle →
      Step s (k, .pop) (s.to k .idle (prTaskPendingQueuePop s.sched).2)

/-- The contexts `κ` on one queue, from initialised tasks. -/
def rescheduling (κ : Type) [DecidableEq κ] (handler : ι → Bool) :
    Lts (Contexts κ ι) (κ × Act ι) where
  init s := Fresh handler s.sched ∧ s.sched.alarms = [] ∧ ∀ k, s.pc k = .idle
  step := Step

/-- A context that is about to arm the alarm finds a waiting task, and every armed alarm is
the one in `queue->alarm` or one that a context is about to cancel. -/
structure Sound (s : Contexts κ ι) : Prop where
  listed : ∀ k, s.pc k = .arming → s.sched.queue.waiting ≠ none
  tracked : ∀ id ∈ s.sched.armed, s.sched.queue.alarm = id ∨ ∃ k, s.pc k = .cancelling id

/-- The step is a locked section that leaves no waiting task. -/
def LeavesNone (s : Contexts κ ι) : κ × Act ι → Prop
  | (_, .exec task) => ∃ r, Returns (fun fuel => execLocked task fuel s.sched) r ∧
      r.2.queue.waiting = none
  | (_, .expire now) => ∃ sched, Returns (fun fuel => waitingProcessLocked now fuel s.sched) sched ∧
      sched.queue.waiting = none
  | _ => False

/-- The step writes `queue->alarm`. -/
def Writes : κ × Act ι → Prop
  | (_, .forget) | (_, .clear) | (_, .arm _) => True
  | _ => False

/-- `queue->alarm` is an armed alarm, and no context is about to cancel it. -/
def Live (s : Contexts κ ι) : Prop :=
  s.sched.queue.alarm ∈ s.sched.armed ∧ ∀ k, s.pc k ≠ .cancelling s.sched.queue.alarm

/-- No step takes the last waiting task while a context is about to arm the alarm for it, and
none overwrites `queue->alarm` while that alarm is live. -/
def Alone (s : Contexts κ ι) (l : κ × Act ι) : Prop :=
  (LeavesNone s l → ∀ k, s.pc k ≠ .arming) ∧ (Writes l → ¬ Live s)

/-! ## 2. One step -/

omit [DecidableEq ι] in
theorem to_self (s : Contexts κ ι) (k : κ) (pc : Pc ι) (sched : Sched ι) :
    (s.to k pc sched).pc k = pc :=
  Function.update_self ..

omit [DecidableEq ι] in
theorem to_other (s : Contexts κ ι) {k j : κ} (pc : Pc ι) (sched : Sched ι) (h : j ≠ k) :
    (s.to k pc sched).pc j = s.pc j :=
  Function.update_of_ne h ..

omit [DecidableEq ι] in
theorem sound_to {s : Contexts κ ι} {k : κ} {pc : Pc ι} {sched : Sched ι}
    (hself : pc = .arming → sched.queue.waiting ≠ none)
    (hother : ∀ j, j ≠ k → s.pc j = .arming → sched.queue.waiting ≠ none)
    (htracked : ∀ id ∈ sched.armed, sched.queue.alarm = id ∨ pc = .cancelling id ∨
      ∃ j, j ≠ k ∧ s.pc j = .cancelling id) : Sound (s.to k pc sched) where
  listed j hj := by
    rcases eq_or_ne j k with rfl | hne
    · rw [to_self] at hj
      exact hself hj
    · rw [to_other s pc sched hne] at hj
      exact hother j hne hj
  tracked id hid := by
    rcases htracked id hid with halarm | hpc | ⟨j, hne, hj⟩
    · exact .inl halarm
    · exact .inr ⟨k, (to_self ..).trans hpc⟩
    · exact .inr ⟨j, (to_other s pc sched hne).trans hj⟩

omit [DecidableEq κ] [DecidableEq ι] in
/-- An alarm that is held is held by another context than one that cancels nothing. -/
theorem Sound.tracked_other {s : Contexts κ ι} (h : Sound s) {k : κ} {id : Int}
    (hk : s.pc k ≠ .cancelling id) (hid : id ∈ s.sched.armed) :
    s.sched.queue.alarm = id ∨ ∃ j, j ≠ k ∧ s.pc j = .cancelling id := by
  rcases h.tracked id hid with halarm | ⟨j, hj⟩
  · exact .inl halarm
  · refine .inr ⟨j, fun heq => hk ?_, hj⟩
    rw [← heq]
    exact hj

omit [DecidableEq ι] in
/-- A step that touches neither the alarm nor the head of the waiting list. -/
theorem sound_same {s : Contexts κ ι} (h : Sound s) {k : κ} {pc : Pc ι} {sched : Sched ι}
    (hk : ∀ id, s.pc k ≠ .cancelling id) (hself : pc = .arming → sched.queue.waiting ≠ none)
    (halarm : SameAlarm s.sched sched) (hwaiting : sched.queue.waiting = s.sched.queue.waiting) :
    Sound (s.to k pc sched) := by
  refine sound_to hself (fun j _ hj => ?_) fun id hid => ?_
  · rw [hwaiting]
    exact h.listed j hj
  · rw [halarm.armed] at hid
    rw [halarm.1]
    exact (h.tracked_other (hk id) hid).imp_right .inr

omit [DecidableEq ι] in
theorem sound_section {s : Contexts κ ι} (h : Sound s) {k : κ} {pc : Pc ι} {sched : Sched ι}
    (hk : ∀ id, s.pc k ≠ .cancelling id) (hpc : pc ≠ .arming) (hkept : Kept s.sched sched)
    (hwaiting : ∀ j, s.pc j = .arming → sched.queue.waiting ≠ none) :
    Sound (s.to k pc sched) := by
  refine sound_to (fun hself => absurd hself hpc) (fun j _ hj => hwaiting j hj) fun id hid => ?_
  rw [hkept.alarm.armed] at hid
  rw [hkept.alarm.1]
  exact (h.tracked_other (hk id) hid).imp_right .inr

omit [DecidableEq κ] [DecidableEq ι] in
/-- While `queue->alarm` is not live, every armed alarm is held. -/
theorem Sound.held {s : Contexts κ ι} (h : Sound s) (hlive : ¬ Live s) {id : Int}
    (hid : id ∈ s.sched.armed) : ∃ j, s.pc j = .cancelling id := by
  rcases h.tracked id hid with rfl | hheld
  · by_contra hnone
    exact hlive ⟨hid, fun j hj => hnone ⟨j, hj⟩⟩
  · exact hheld

omit [DecidableEq ι] in
theorem sound_clear {s : Contexts κ ι} (h : Sound s) (hlive : ¬ Live s) {k : κ} {pc : Pc ι}
    (hk : ∀ id, s.pc k ≠ .cancelling id) (hpc : pc ≠ .arming) :
    Sound (s.to k pc (clearAlarm s.sched)) := by
  refine sound_to (fun hself => absurd hself hpc) (fun j _ hj => h.listed j hj) fun id hid => ?_
  obtain ⟨j, hj⟩ := h.held hlive hid
  refine .inr (.inr ⟨j, fun heq => hk id ?_, hj⟩)
  rw [← heq]
  exact hj

theorem prTaskPendingQueuePop_waiting (s : Sched ι) :
    (prTaskPendingQueuePop s).2.queue.waiting = s.queue.waiting := by
  unfold prTaskPendingQueuePop
  split <;> rfl

/-- A step that meets the condition keeps the contexts sound. -/
theorem sound_step {s s' : Contexts κ ι} {l : κ × Act ι} (h : Sound s) (hs : Step s l s')
    (hok : Alone s l) : Sound s' := by
  obtain ⟨hlast, hwrite⟩ := hok
  cases hs with
  | @exec k task reschedule sched hpc _ _ hret =>
    refine sound_section h (by simp [hpc]) (by split <;> nofun) ?_ fun j hj hnone => ?_
    · obtain ⟨fuel, hret⟩ := hret
      exact kept_execLocked task fuel _ _ hret
    · exact hlast ⟨_, hret, hnone⟩ j hj
  | test hpc =>
    exact sound_same h (by simp [hpc]) (by split <;> nofun) ⟨rfl, rfl⟩ rfl
  | @enter k task deadline sched hpc _ hret =>
    obtain ⟨fuel, hret⟩ := hret
    exact sound_section h (by simp [hpc]) nofun (kept_execInLocked task deadline fuel _ _ hret)
      fun _ _ => execInLocked_waiting task deadline fuel _ _ hret
  | fire hpc _ =>
    refine sound_to nofun (fun j _ hj => h.listed j hj) fun id hid => ?_
    exact (h.tracked_other (by simp [hpc]) (mem_armed_cancel.mp hid).1).imp_right .inr
  | forget hpc => exact sound_clear h (hwrite trivial) (by simp [hpc]) nofun
  | @expire k now sched hpc hret =>
    refine sound_section h (by simp [hpc]) nofun ?_ fun j hj hnone => ?_
    · obtain ⟨fuel, hret⟩ := hret
      exact kept_waitingProcess now fuel _ _ hret
    · exact hlast ⟨_, hret, hnone⟩ j hj
  | readAlarm hpc => exact sound_same h (by simp [hpc]) (by split <;> nofun) ⟨rfl, rfl⟩ rfl
  | readId hpc => exact sound_same h (by simp [hpc]) nofun ⟨rfl, rfl⟩ rfl
  | @cancel k id hpc =>
    refine sound_to nofun (fun j _ hj => h.listed j hj) fun id' hid => ?_
    obtain ⟨hid, hne⟩ := mem_armed_cancel.mp hid
    refine (h.tracked_other ?_ hid).imp_right .inr
    rw [hpc]
    exact fun heq => hne (Pc.cancelling.inj heq).symm
  | clear hpc => exact sound_clear h (hwrite trivial) (by simp [hpc]) nofun
  | readWaiting hpc =>
    refine sound_same h (by simp [hpc]) (fun harming => ?_) ⟨rfl, rfl⟩ rfl
    split at harming
    · cases harming
    · assumption
  | @arm k sdk sched hpc _ harm =>
    obtain ⟨hlisted, hwaiting, harmed, -⟩ := rescheduleArm_armed harm
    refine sound_to nofun (fun j _ _ => hwaiting ▸ hlisted) fun id hid => ?_
    rcases harmed id hid with ⟨halarm, -⟩ | hold
    · exact .inl halarm
    · obtain ⟨j, hj⟩ := h.held (hwrite trivial) hold
      refine .inr (.inr ⟨j, fun heq => ?_, hj⟩)
      rw [heq, hpc] at hj
      cases hj
  | pop hpc =>
    exact sound_same h (by simp [hpc]) nofun (kept_pop s.sched).alarm
      (prTaskPendingQueuePop_waiting s.sched)

omit [DecidableEq ι] in
/-- Overwriting a live alarm leaves it armed without anyone knowing its id. -/
theorem not_overwritten {s : Contexts κ ι} {k : κ} {pc : Pc ι} {sched : Sched ι}
    (h : Sound (s.to k pc sched)) (hpc : ∀ id, pc ≠ .cancelling id)
    (hne : sched.queue.alarm ≠ s.sched.queue.alarm)
    (harmed : ∀ id ∈ s.sched.armed, id ∈ sched.armed) : ¬ Live s := by
  rintro ⟨hlive, hheld⟩
  rcases h.tracked _ (harmed _ hlive) with heq | ⟨j, hj⟩
  · exact hne heq
  · rcases eq_or_ne j k with rfl | hjk
    · rw [to_self] at hj
      exact hpc _ hj
    · rw [to_other s pc sched hjk] at hj
      exact hheld j hj

def Positive (s : Sched ι) : Prop := ∀ id ∈ s.armed, 0 < id

theorem positive_step {s s' : Contexts κ ι} {l : κ × Act ι} (h : Positive s.sched)
    (hs : Step s l s') : Positive s'.sched := by
  have hkept : ∀ {sched}, SameAlarm s.sched sched → Positive sched := by
    intro sched hsame id hid
    rw [hsame.armed] at hid
    exact h id hid
  cases hs with
  | @exec k task reschedule sched _ _ _ hret =>
    obtain ⟨fuel, hret⟩ := hret
    exact hkept (kept_execLocked task fuel _ _ hret).alarm
  | @enter k task deadline sched _ _ hret =>
    obtain ⟨fuel, hret⟩ := hret
    exact hkept (kept_execInLocked task deadline fuel _ _ hret).alarm
  | @expire k now sched _ hret =>
    obtain ⟨fuel, hret⟩ := hret
    exact hkept (kept_waitingProcess now fuel _ _ hret).alarm
  | pop _ => exact hkept (kept_pop s.sched).alarm
  | fire _ _ => exact fun id hid => h id (mem_armed_cancel.mp hid).1
  | cancel _ => exact fun id hid => h id (mem_armed_cancel.mp hid).1
  | arm _ _ harm =>
    obtain ⟨-, -, harmed, -⟩ := rescheduleArm_armed harm
    intro id hid
    rcases harmed id hid with ⟨-, hpos⟩ | hold
    · exact hpos
    · exact h id hold
  | test _ | forget _ | readAlarm _ | readId _ | clear _ | readWaiting _ => exact h

/-- A step that keeps the contexts sound meets the condition. -/
theorem alone_of_sound {s s' : Contexts κ ι} {l : κ × Act ι} (hpos : Positive s.sched)
    (hs : Step s l s') (h : Sound s') : Alone s l := by
  have hclear : ∀ {k : κ} {pc : Pc ι}, Sound (s.to k pc (clearAlarm s.sched)) →
      (∀ id, pc ≠ .cancelling id) → ¬ Live s := by
    intro k pc h hpc hlive
    refine not_overwritten h hpc (fun heq => ?_) (fun _ hid => hid) hlive
    have hmem : 0 < (-1 : Int) := by
      have hneg : (clearAlarm s.sched).queue.alarm = -1 := rfl
      rw [← hneg, heq]
      exact hpos _ hlive.1
    exact absurd hmem (by decide)
  have hmoved : ∀ {k : κ} {pc : Pc ι} {sched : Sched ι}, Sound (s.to k pc sched) →
      s.pc k ≠ .arming → sched.queue.waiting = none → ∀ j, s.pc j ≠ .arming := by
    intro k pc sched h hk hnone j hj
    refine h.listed j ?_ hnone
    rw [to_other s pc sched fun heq => hk (by rw [← heq]; exact hj)]
    exact hj
  cases hs with
  | @exec k task reschedule sched hpc _ _ hret =>
    refine ⟨?_, nofun⟩
    rintro ⟨r, hr, hnone⟩
    obtain rfl := (execLocked_fueled task s.sched).returns_unique hret hr
    exact hmoved h (by simp [hpc]) hnone
  | @expire k now sched hpc hret =>
    refine ⟨?_, nofun⟩
    rintro ⟨r, hr, hnone⟩
    obtain rfl := Fueled.returns_unique (fun fuel => waitingProcessLocked_fueled now fuel s.sched)
      hret hr
    exact hmoved h (by simp [hpc]) hnone
  | forget _ => exact ⟨nofun, fun _ => hclear h fun _ => nofun⟩
  | clear _ => exact ⟨nofun, fun _ => hclear h fun _ => nofun⟩
  | @arm k sdk sched hpc hfresh harm =>
    obtain ⟨-, -, -, hold, -, time, halarm⟩ := rescheduleArm_armed harm
    refine ⟨nofun, fun _ hlive => ?_⟩
    refine not_overwritten h (fun _ => nofun) (fun heq => hfresh time ?_) hold hlive
    rw [← halarm, heq]
    exact hlive.1
  | test _ | enter _ _ _ | fire _ _ | readAlarm _ | readId _ | cancel _ | readWaiting _ | pop _ =>
    exact ⟨nofun, nofun⟩

/-! ## 3. Runs -/

/-- In every run whose steps meet `Alone`, the arming finds a waiting task and no armed alarm is
forgotten. The first step that does not meet it breaks this, since `queue_reschedule` reads and
writes the queue outside of the lock. -/
theorem reschedule_sound (handler : ι → Bool) {s : Contexts κ ι}
    (h : ((rescheduling κ handler).guard Alone).Reachable s) :
    Sound s ∧ ∀ l s', (rescheduling κ handler).step s l s' → (Sound s' ↔ Alone s l) := by
  obtain ⟨hsound, hpos⟩ : Sound s ∧ Positive s.sched := by
    refine h.invariant (I := fun s => Sound s ∧ Positive s.sched) ?_ ?_
    · rintro s ⟨-, halarms, hidle⟩
      refine ⟨⟨fun k hk => ?_, fun id hid => ?_⟩, fun id hid => ?_⟩
      · rw [hidle k] at hk
        cases hk
      · rw [Sched.armed, halarms] at hid
        cases hid
      · rw [Sched.armed, halarms] at hid
        cases hid
    · rintro s l s' ⟨hsound, hpos⟩ ⟨hs, hok⟩
      exact ⟨sound_step hsound hs hok, positive_step hpos hs⟩
  exact ⟨hsound, fun l s' hs => ⟨alone_of_sound hpos hs, sound_step hsound hs⟩⟩

namespace RescheduleLemmas

open RefineLemmas AlarmLemmas

/-- Two contexts at rest: the main loop, `false`, and an interrupt, `true`. -/
def atRest : Contexts Bool Bool := ⟨start, fun _ => .idle⟩

/-- The state after the locked section of `pr_task_exec_in_us`. -/
def delayedTo (task : Bool) (deadline : Nat) (s : Sched Bool) : Sched Bool :=
  match execInLocked task deadline 3 s with
  | .ok s => s
  | .error _ => s

/-- The state after the locked section of `queue_reschedule`. -/
def armedBy (s : Sched Bool) : Sched Bool :=
  match rescheduleArm (sdkAt 0) s with
  | .ok s => s
  | .error _ => s

/-- The main loop gives the task `false` a deadline and is about to arm its alarm. -/
def atArm : Contexts Bool Bool := atRest.to false .arming (delayedTo false 10 start)

theorem to_to (s : Contexts Bool Bool) (k : Bool) (pc pc' : Pc Bool) (sched sched' : Sched Bool) :
    (s.to k pc sched).to k pc' sched' = s.to k pc' sched' := by
  simp only [Contexts.to, Function.update_idem]

/-- What a context does from the test of its task to the arming, when no alarm is set. -/
theorem reaches_arming (L : Lts (Contexts Bool Bool) (Bool × Act Bool))
    (hL : ∀ s l s', Step s l s' → ¬ LeavesNone s l → ¬ Writes l → L.step s l s')
    {s : Contexts Bool Bool} (h : L.Reachable s) (k task : Bool) (deadline : Nat)
    {sched : Sched Bool} (hk : s.pc k = .idle) (hpending : (s.sched.tasks task).pending = false)
    (hqueue : (s.sched.tasks task).queue = true)
    (hret : execInLocked task deadline 3 s.sched = .ok sched)
    (halarm : sched.queue.alarm = -1) (hwaiting : sched.queue.waiting ≠ none) :
    L.Reachable (s.to k .arming sched) := by
  have htest : Step s (k, .test task) (s.to k (.tested task) s.sched) := by
    have hstep : Step s (k, .test task) (s.to k
        (if (s.sched.tasks task).pending then .idle else .tested task) s.sched) := .test hk
    rwa [if_neg (by rw [hpending]; decide)] at hstep
  have henter : Step (s.to k (.tested task) s.sched) (k, .enter deadline)
      (s.to k .reschedule sched) := by
    rw [← to_to s k (.tested task) .reschedule s.sched sched]
    exact .enter (to_self ..) hqueue ⟨3, hret⟩
  have hread : Step (s.to k .reschedule sched) (k, .readAlarm) (s.to k .checking sched) := by
    have hstep := Step.readAlarm (s := s.to k .reschedule sched) (to_self ..)
    have hneg : ¬ (s.to k .reschedule sched).sched.queue.alarm ≥ 0 := by
      rw [Contexts.to, halarm]
      decide
    rwa [if_neg hneg, to_to] at hstep
  have hcheck : Step (s.to k .checking sched) (k, .readWaiting) (s.to k .arming sched) := by
    have hstep := Step.readWaiting (s := s.to k .checking sched) (to_self ..)
    rwa [if_neg (show ¬ (s.to k .checking sched).sched.queue.waiting = none from hwaiting), to_to]
      at hstep
  exact .step (.step (.step (.step h (hL _ _ _ htest nofun nofun)) (hL _ _ _ henter nofun nofun))
    (hL _ _ _ hread nofun nofun)) (hL _ _ _ hcheck nofun nofun)

theorem init_atRest : (rescheduling Bool fun _ => true).init atRest :=
  ⟨fresh_start, rfl, fun _ => rfl⟩

theorem atArm_alone : ((rescheduling Bool fun _ => true).guard Alone).Reachable atArm := by
  refine reaches_arming ((rescheduling Bool fun _ => true).guard Alone) ?_ (.init init_atRest) false
    false 10 rfl rfl rfl rfl rfl ?_
  · exact fun _ _ _ hs hlast hwrite => ⟨hs, fun h => absurd h hlast, fun h => absurd h hwrite⟩
  · exact Option.some_ne_none false

def bothAtArm : Contexts Bool Bool :=
  atArm.to true .arming (delayedTo true 20 atArm.sched)

theorem bothAtArm_reachable : (rescheduling Bool fun _ => true).Reachable bothAtArm := by
  refine reaches_arming _ (fun _ _ _ hs _ _ => hs) atArm_alone.of_guard true true 20 rfl rfl rfl rfl
    rfl ?_
  exact Option.some_ne_none false

end RescheduleLemmas

open RescheduleLemmas in
theorem reschedule_sound_atArm :
    ((rescheduling Bool fun _ => true).guard Alone).Reachable atArm ∧ atArm.pc false = .arming ∧
    Sound atArm ∧ ∀ l s', (rescheduling Bool fun _ => true).step atArm l s' →
      (Sound s' ↔ Alone atArm l) :=
  ⟨atArm_alone, rfl, reschedule_sound (fun _ => true) atArm_alone⟩

open RescheduleLemmas RefineLemmas AlarmLemmas in
/-- The interrupt takes the task out before the main loop has the lock, or both arm an alarm
and the main loop's is forgotten. -/
theorem reschedule_interrupted :
    (∃ s : Contexts Bool Bool, (rescheduling Bool fun _ => true).Reachable s ∧
      s.pc false = .arming ∧ ∀ sdk, rescheduleArm sdk s.sched = .error (.fault .nullPointer)) ∧
    ∃ s : Contexts Bool Bool, (rescheduling Bool fun _ => true).Reachable s ∧
      (∀ k, s.pc k = .idle) ∧ 1 ∈ s.sched.armed ∧ s.sched.queue.alarm = 2 := by
  constructor
  · have hexec : execLocked false 3 atArm.sched = .ok (true, _) := rfl
    have hstep : Step atArm (true, .exec false) _ := .exec rfl rfl rfl ⟨3, hexec⟩
    exact ⟨_, .step atArm_alone.of_guard hstep, rfl, fun _ => rfl⟩
  · -- Each id is larger than the sum of those that are armed.
    have hfirst : Step bothAtArm (false, .arm (sdkAt 0))
        (bothAtArm.to false .idle (armedBy bothAtArm.sched)) :=
      .arm rfl (fun time => (freshIds_sdkAt 0 _ time).2) rfl
    have hsecond : Step (bothAtArm.to false .idle (armedBy bothAtArm.sched)) (true, .arm (sdkAt 0))
        ((bothAtArm.to false .idle (armedBy bothAtArm.sched)).to true .idle
          (armedBy (armedBy bothAtArm.sched))) :=
      .arm rfl (fun time => (freshIds_sdkAt 0 _ time).2) rfl
    refine ⟨_, .step (.step bothAtArm_reachable hfirst) hsecond, ?_, by decide, rfl⟩
    intro k
    cases k <;> rfl

end Picore.Task.Reschedule
