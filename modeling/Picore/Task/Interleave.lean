import Picore.Task.Refine
import Picore.Lib.Transition

/-!
# Several contexts on one queue

The main loop and an interrupt, or two cores, run the calls of the library at the
same time. The steps are the locked sections, the unlocked reads of the flags of
a task, and the pieces of `queue_reschedule`. `pr_task_exec_in_us` and
`pr_task_exec_in_ms` test the pending flag before they take the lock, and not
again inside.

Results:
1. `step_schedule`, `step_represents`: a step whose locked section is entered with a task
   that is still not pending acts on the schedule that the lists are.
2. `lists_intact_iff_tested`: the lists are intact as long as all such sections
   are, and the first one that is not breaks them. `exec_in_races_exec`: a run
   that breaks them.
-/

namespace Picore.Task

open Fuel Chain Transition

variable {κ ι : Type} [DecidableEq κ] [DecidableEq ι] {handler : ι → Bool}

/-- Where a context stands in a call. A locked section is one step, so these are the points between
such sections and the unlocked reads. -/
inductive Pc (ι : Type)
  | idle
  /-- `pr_task_exec_in_us` or `pr_task_exec_in_ms` has found the task not pending. -/
  | tested (task : ι)
  /-- `ptask_alarm` has forgotten the alarm. -/
  | expiring
  /-- At the start of `queue_reschedule`. -/
  | reschedule
  /-- `queue_reschedule` has found an alarm. -/
  | cancelling
  /-- `queue_reschedule` is done with the old alarm. -/
  | checking
  /-- `queue_reschedule` has found a waiting task. -/
  | arming

/-- The queue with its tasks, and where each context stands. -/
structure Contexts (κ ι : Type) where
  sched : Sched ι
  pc : κ → Pc ι

/-- The state after a step of the context `k`. -/
def Contexts.to (s : Contexts κ ι) (k : κ) (pc : Pc ι) (sched : Sched ι) : Contexts κ ι where
  sched := sched
  pc := Function.update s.pc k pc

/-- The labels of the steps: locked sections, the unlocked test of the pending flag, the alarm, and
the pieces of `queue_reschedule`. -/
inductive Act (ι : Type)
  | exec (task : ι)
  | test (task : ι)
  | enter (deadline : Nat)
  | fire (id : Int)
  | expire (now : Nat)
  | readAlarm
  | cancel
  | readWaiting
  | arm (sdk : Sdk)
  | pop

/-- One step of one context. The others stay where they are, but see the queue as the step leaves
it. -/
inductive Step : Contexts κ ι → κ × Act ι → Contexts κ ι → Prop
  /-- The locked section of `pr_task_exec`. -/
  | exec {s : Contexts κ ι} {k : κ} {task : ι} {reschedule : Bool} {sched : Sched ι} :
      s.pc k = .idle → (s.sched.tasks task).handler = true → (s.sched.tasks task).queue = true →
      Returns (fun fuel => execLocked task fuel s.sched) (reschedule, sched) →
      Step s (k, .exec task) (s.to k (if reschedule then .reschedule else .idle) sched)
  /-- The unlocked `is_pending` of `pr_task_exec_in_us` and `pr_task_exec_in_ms`. -/
  | test {s : Contexts κ ι} {k : κ} {task : ι} : s.pc k = .idle →
      Step s (k, .test task)
        (s.to k (if (s.sched.tasks task).pending then .idle else .tested task) s.sched)
  /-- Their locked section. -/
  | enter {s : Contexts κ ι} {k : κ} {task : ι} {deadline : Nat} {sched : Sched ι} :
      s.pc k = .tested task → (s.sched.tasks task).queue = true →
      Returns (fun fuel => execInLocked task deadline fuel s.sched) sched →
      Step s (k, .enter deadline) (s.to k .reschedule sched)
  /-- `ptask_alarm` starts. -/
  | fire {s : Contexts κ ι} {k : κ} {id : Int} : s.pc k = .idle →
      Step s (k, .fire id) (s.to k .expiring (Call.ack s.sched (.alarm id)))
  /-- The locked section of `queue_waiting_process`. -/
  | expire {s : Contexts κ ι} {k : κ} {now : Nat} {sched : Sched ι} : s.pc k = .expiring →
      Returns (fun fuel => waitingProcessLocked now fuel s.sched) sched →
      Step s (k, .expire now) (s.to k .reschedule sched)
  /-- `if (queue->alarm >= 0)`. -/
  | readAlarm {s : Contexts κ ι} {k : κ} : s.pc k = .reschedule →
      Step s (k, .readAlarm)
        (s.to k (if s.sched.queue.alarm ≥ 0 then .cancelling else .checking) s.sched)
  /-- `cancel_alarm(queue->alarm)` and `queue->alarm = -1`. -/
  | cancel {s : Contexts κ ι} {k : κ} : s.pc k = .cancelling →
      Step s (k, .cancel) (s.to k .checking (Call.ack s.sched (.alarm s.sched.queue.alarm)))
  /-- `if (!queue->waiting)`. -/
  | readWaiting {s : Contexts κ ι} {k : κ} : s.pc k = .checking →
      Step s (k, .readWaiting)
        (s.to k (if s.sched.queue.waiting = none then .idle else .arming) s.sched)
  /-- The locked section of `queue_reschedule`. -/
  | arm {s : Contexts κ ι} {k : κ} {sdk : Sdk} {sched : Sched ι} : s.pc k = .arming →
      rescheduleArm sdk s.sched = .ok sched → Step s (k, .arm sdk) (s.to k .idle sched)
  /-- The locked section of `pr_task_queue_run_until_empty`. -/
  | pop {s : Contexts κ ι} {k : κ} : s.pc k = .idle →
      Step s (k, .pop) (s.to k .idle (prTaskPendingQueuePop s.sched).2)

/-- The contexts `κ` on one queue, from initialised tasks. -/
def interleaving (κ : Type) [DecidableEq κ] (handler : ι → Bool) :
    Lts (Contexts κ ι) (κ × Act ι) where
  init s := Fresh handler s.sched ∧ ∀ k, s.pc k = .idle
  step := Step

/-- The lists have no node in common and no node twice, and the flags tell who is
in them. -/
def Intact (s : Sched ι) : Prop :=
  ∃ p w, Path s.next s.queue.first p none ∧ Path s.next s.queue.waiting w none ∧
    p.Nodup ∧ w.Nodup ∧ (∀ t ∈ p, t ∉ w) ∧
    (∀ t, (s.tasks t).pending = true ↔ t ∈ p) ∧ ∀ t, (s.tasks t).waiting = true ↔ t ∈ w

/-- A context that enters the locked section of `pr_task_exec_in_us` or
`pr_task_exec_in_ms` does so with a task that is still not pending. -/
def StillTested (s : Contexts κ ι) (l : κ × Act ι) : Prop :=
  match l with
  | (k, .enter _) => ∀ task, s.pc k = .tested task → (s.sched.tasks task).pending = false
  | _ => True

/-! ## 1. One step -/

omit [DecidableEq ι] in
theorem Represents.intact {s : Sched ι} {a : Schedule ι Nat} (h : Represents handler s a) :
    Intact s :=
  ⟨a.pending, a.sleepers, h.first, h.waiting, a.pending_nodup, a.waiting_nodup, a.disjoint,
    h.pending_flag, h.waiting_flag⟩

/-- What a step of a context that stands at `pc` does to the schedule. -/
def Schedule.act (a : Schedule ι Nat) (pc : Pc ι) : Act ι → Schedule ι Nat
  | .exec t => a.exec t
  | .enter d =>
    match pc with
    | .tested t => a.execIn t d
    | _ => a
  | .expire now => a.expire now
  | .pop => a.pop
  | _ => a

theorem step_schedule {s s' : Contexts κ ι} {l : κ × Act ι} {a : Schedule ι Nat}
    (h : Represents handler s.sched a) (hs : Step s l s') (hok : StillTested s l) :
    Represents handler s'.sched (a.act (s.pc l.1) l.2) := by
  cases hs with
  | exec _ _ _ hret =>
    obtain ⟨s1, hexec, h1, -⟩ := execLocked_represents h _ (Nat.le_refl _)
    obtain ⟨-, rfl⟩ := Prod.mk.inj ((execLocked_fueled _ _).returns_unique hret ⟨_, hexec⟩)
    exact h1
  | test _ => exact h
  | enter hpc _ hret =>
    -- The only section that relies on what was read before the lock was taken.
    have hp : _ ∉ a.pending := fun hmem => by
      have hfalse := hok _ hpc
      rw [(h.pending_flag _).mpr hmem] at hfalse
      cases hfalse
    obtain ⟨s1, hin, h1, -⟩ := execInLocked_represents h hp _ (Nat.lt_succ_self _)
    obtain rfl := (execInLocked_fueled _ _ _).returns_unique hret ⟨_, hin⟩
    simp only [Schedule.act, hpc]
    exact h1
  | fire _ => exact h.alarm rfl ⟨-1, rfl⟩
  | expire _ hret =>
    obtain ⟨s1, hproc, h1, -⟩ := waitingProcessLocked_represents _ h rfl (Nat.lt_succ_self _)
    obtain rfl := Fueled.returns_unique (fun fuel => waitingProcessLocked_fueled _ fuel _) hret
      ⟨_, hproc⟩
    exact h1
  | readAlarm _ => exact h
  | cancel _ => exact h.alarm rfl ⟨-1, rfl⟩
  | readWaiting _ => exact h
  | @arm k sdk sched _ harm =>
    cases hw : s.sched.queue.waiting with
    | none => simp [rescheduleArm, hw] at harm
    | some t =>
      obtain ⟨s1, harm1, ht, hq, -⟩ := rescheduleArm_eq sdk hw
      rw [harm1] at harm
      cases harm
      exact h.alarm ht ⟨_, hq⟩
  | pop _ => exact (prTaskPendingQueuePop_represents h).2.1

theorem step_represents {s s' : Contexts κ ι} {l : κ × Act ι} {a : Schedule ι Nat}
    (h : Represents handler s.sched a) (hs : Step s l s') (hok : StillTested s l) :
    ∃ a', Represents handler s'.sched a' :=
  ⟨_, step_schedule h hs hok⟩

/-! ## 2. Runs -/

/-- A task that is put into the waiting list while it is pending is in both lists. -/
theorem execInLocked_pending {s s' : Sched ι} {a : Schedule ι Nat} (h : Represents handler s a)
    {t : ι} (ht : t ∈ a.pending) {d : Nat}
    (hret : Returns (fun fuel => execInLocked t d fuel s) s') : ¬Intact s' := by
  rintro ⟨p, w, -, -, -, -, hdis, hp, hw⟩
  obtain ⟨fuel, hin⟩ := hret
  have hsleep : t ∉ a.sleepers := a.disjoint t ht
  have hnw : (s.tasks t).waiting = false := by rw [is_waiting h, decide_eq_false hsleep]
  simp only [execInLocked, hnw, Bool.false_eq_true, if_false, bind_ok] at hin
  obtain ⟨cur, -, hlink⟩ := bind_eq_ok.mp hin
  obtain rfl : link t d cur s = s' := Except.ok.inj hlink
  have hpend : ((link t d cur s).tasks t).pending = true := by
    rw [link_field PrTask.pending (fun _ _ => rfl), timed_field PrTask.pending (fun _ _ => rfl)]
    exact (h.pending_flag t).mpr ht
  have hwait : ((link t d cur s).tasks t).waiting = true := by
    rw [link_field PrTask.waiting (fun _ _ => rfl), timed, set_tasks_self]
  exact hdis t ((hp t).mp hpend) ((hw t).mp hwait)

/-- As long as every locked section of `pr_task_exec_in_us` and `pr_task_exec_in_ms` is entered with
a task that is still not pending, the lists are intact. The first such section that is entered with
a pending task breaks them: the lists share the `next` pointers. -/
theorem lists_intact_iff_tested (handler : ι → Bool) {s : Contexts κ ι}
    (h : ((interleaving κ handler).guard StillTested).Reachable s) :
    Intact s.sched ∧
    ∀ l s', (interleaving κ handler).step s l s' → (Intact s'.sched ↔ StillTested s l) := by
  obtain ⟨a, ha⟩ : ∃ a, Represents handler s.sched a := by
    refine h.invariant (I := fun s => ∃ a, Represents handler s.sched a) ?_ ?_
    · exact fun s hs => ⟨.empty, hs.1.represents⟩
    · exact fun s l s' ⟨a, ha⟩ hs => step_represents ha hs.1 hs.2
  refine ⟨ha.intact, fun l s' hs => ⟨fun hintact => ?_, fun hok => ?_⟩⟩
  · cases hs with
    | enter hpc _ hret =>
      intro t ht
      rw [hpc] at ht
      cases ht
      by_contra hp
      exact execInLocked_pending ha ((ha.pending_flag _).mp (by simpa using hp)) hret hintact
    | _ => exact trivial
  · obtain ⟨a', ha'⟩ := step_represents ha hs hok
    exact ha'.intact

namespace InterleaveLemmas

open RefineLemmas

/-- Two contexts at rest: the main loop, `false`, and an interrupt, `true`. -/
def atRest : Contexts Bool Bool := ⟨start, fun _ => .idle⟩

/-- The main loop has found the task `true` not pending. -/
def afterTest : Contexts Bool Bool := atRest.to false (.tested true) start

/-- The queue after the interrupt asks for the task `true`. -/
def oneTask : Sched Bool :=
  match execLocked true 1 start with
  | .ok (_, s) => s
  | .error _ => start

/-- The queue after the main loop gives the task `true` a deadline all the same. -/
def bothLists : Sched Bool :=
  match execInLocked true 10 2 oneTask with
  | .ok s => s
  | .error _ => start

theorem step_test : Step atRest (false, .test true) afterTest := .test rfl

theorem step_exec : Step afterTest (true, .exec true) (afterTest.to true .idle oneTask) :=
  @Step.exec _ _ _ _ _ _ _ false _ rfl rfl rfl ⟨1, rfl⟩

theorem step_enter : Step (afterTest.to true .idle oneTask) (false, .enter 10)
    ((afterTest.to true .idle oneTask).to false .reschedule bothLists) :=
  @Step.enter _ _ _ _ _ _ true _ _ rfl rfl ⟨2, rfl⟩

theorem reachable_afterTest :
    ((interleaving Bool fun _ => true).guard StillTested).Reachable afterTest :=
  .step (.init ⟨fresh_start, fun _ => rfl⟩) ⟨step_test, trivial⟩

end InterleaveLemmas

open InterleaveLemmas in
theorem lists_intact_iff_tested_demo :
    ((interleaving Bool fun _ => true).guard StillTested).Reachable afterTest ∧
    Intact afterTest.sched ∧ ∀ l s', (interleaving Bool fun _ => true).step afterTest l s' →
      (Intact s'.sched ↔ StillTested afterTest l) :=
  ⟨reachable_afterTest, lists_intact_iff_tested (fun _ => true) reachable_afterTest⟩

open InterleaveLemmas RefineLemmas in
/-- The main loop tests a task, an interrupt makes it pending, and the main loop
puts it into the waiting list: the task is in both lists. -/
theorem exec_in_races_exec :
    ∃ s, (interleaving Bool fun _ => true).Reachable s ∧ s.sched.queue.first = some true ∧
      s.sched.queue.waiting = some true ∧ ¬Intact s.sched := by
  refine ⟨_, .step (.step (.step (.init ⟨fresh_start, fun _ => rfl⟩) step_test) step_exec)
    step_enter, rfl, rfl, ?_⟩
  rintro ⟨p, w, -, -, -, -, hdis, hp, hw⟩
  exact hdis true ((hp true).mp rfl) ((hw true).mp rfl)

end Picore.Task
