import Picore.Task.Lists

/-!
# What the locked sections leave alone

The sections that work on the lists touch neither the alarm nor the pointers that bind a task
to its queue and handler. This holds on lists of any shape, also on those that a race has
broken.

Results:
1. `Kept`: the alarm and the bindings are the same. `kept_insert`, `kept_pop`, `kept_waitPop`,
   `kept_unwait`: the list routines.
2. `kept_execLocked`, `kept_execInLocked`, `kept_waitingProcess`: the locked sections.
3. `execInLocked_waiting`: after an insertion a task waits.
-/

namespace Picore.Task

open Fuel Chain

variable {ι : Type} [DecidableEq ι]

/-! ## 1. The list routines -/

/-- The alarm is the same, and every task has the same handler and queue. -/
structure Kept (s s' : Sched ι) : Prop where
  alarm : SameAlarm s s'
  handler : ∀ t, (s'.tasks t).handler = (s.tasks t).handler
  queue : ∀ t, (s'.tasks t).queue = (s.tasks t).queue

omit [DecidableEq ι] in
theorem Kept.refl (s : Sched ι) : Kept s s := ⟨⟨rfl, rfl⟩, fun _ => rfl, fun _ => rfl⟩

omit [DecidableEq ι] in
theorem Kept.trans {s s' s'' : Sched ι} (h : Kept s s') (h' : Kept s' s'') : Kept s s'' where
  alarm := h.alarm.trans h'.alarm
  handler t := (h'.handler t).trans (h.handler t)
  queue t := (h'.queue t).trans (h.queue t)

theorem kept_set (s : Sched ι) (t : ι) {x : PrTask ι} (hh : x.handler = (s.tasks t).handler)
    (hq : x.queue = (s.tasks t).queue) : Kept s (s.set t x) where
  alarm := ⟨rfl, rfl⟩
  handler := set_field PrTask.handler s t hh
  queue := set_field PrTask.queue s t hq

theorem kept_assign (s : Sched ι) (cur : Cell ι) (v : Option ι) : Kept s (s.assign cur v) where
  alarm := assign_sameAlarm s cur v
  handler := assign_field PrTask.handler (fun _ _ => rfl) s cur v
  queue := assign_field PrTask.queue (fun _ _ => rfl) s cur v

theorem kept_insert (t : ι) (s : Sched ι) : Kept s (prTaskPendingQueueInsert t s) where
  alarm := prTaskPendingQueueInsert_sameAlarm t s
  handler u := (prTaskPendingQueueInsert_field PrTask.handler (fun _ _ => rfl) t s u).trans
    (marked_field PrTask.handler (fun _ _ => rfl) t s u)
  queue u := (prTaskPendingQueueInsert_field PrTask.queue (fun _ _ => rfl) t s u).trans
    (marked_field PrTask.queue (fun _ _ => rfl) t s u)

/-- The head of the list has changed, and the task that was taken out. -/
theorem kept_taken (s : Sched ι) (queue : PrTaskQueue ι) (halarm : queue.alarm = s.queue.alarm)
    (t : ι) {x : PrTask ι} (hh : x.handler = (s.tasks t).handler)
    (hq : x.queue = (s.tasks t).queue) : Kept s (Sched.set { s with queue := queue } t x) where
  alarm := ⟨halarm, rfl⟩
  handler := set_field PrTask.handler { s with queue := queue } t hh
  queue := set_field PrTask.queue { s with queue := queue } t hq

theorem kept_pop (s : Sched ι) : Kept s (prTaskPendingQueuePop s).2 := by
  unfold prTaskPendingQueuePop
  split
  · exact .refl s
  · refine kept_taken s _ ?_ _ ?_ ?_ <;> rfl

theorem kept_waitPop (s : Sched ι) : Kept s (prTaskWaitQueuePop s).2 := by
  unfold prTaskWaitQueuePop
  split
  · exact .refl s
  · refine kept_taken s _ ?_ _ ?_ ?_ <;> rfl

theorem kept_removeLoop (t : ι) (fuel : Nat) : ∀ (cur : Cell ι) (s : Sched ι),
    Ensures (Kept s) (waitRemoveLoop t fuel cur s) := by
  induction fuel with
  | zero =>
    rintro cur s s' hs
    cases hs
  | succ fuel ih =>
    intro cur s
    rw [waitRemoveLoop]
    split
    · exact ensures_ok (.refl s)
    · split
      · exact ensures_ok ((kept_assign s cur _).trans (kept_set _ t rfl rfl))
      · exact ih _ s

theorem kept_unwait (t : ι) (fuel : Nat) (s : Sched ι) :
    Ensures (Kept s) (if (s.tasks t).waiting then prTaskWaitQueueRemove t fuel s else .ok s) := by
  split
  · rw [prTaskWaitQueueRemove]
    split
    · rintro s' hs
      cases hs
    · exact kept_removeLoop t fuel _ s
  · exact ensures_ok (.refl s)

/-! ## 2. The locked sections -/

theorem kept_execLocked (t : ι) (fuel : Nat) (s : Sched ι) :
    Ensures (fun r => Kept s r.2) (execLocked t fuel s) := by
  rw [execLocked]
  split
  · exact ensures_ok (.refl s)
  · refine (kept_unwait t fuel s).bind fun s1 h1 => ?_
    exact ensures_ok (h1.trans (kept_insert t s1))

theorem kept_link (t : ι) (d : Nat) (cur : Cell ι) (s : Sched ι) : Kept s (link t d cur s) := by
  have htimed : Kept s (timed t d s) := by
    refine kept_set s t ?_ ?_ <;> rfl
  have hnext : ∀ v, Kept (timed t d s) ((timed t d s).setNext t v) := by
    refine fun v => kept_set _ t ?_ ?_ <;> rfl
  exact (htimed.trans (hnext _)).trans (kept_assign _ cur _)

theorem kept_execInLocked (t : ι) (d fuel : Nat) (s : Sched ι) :
    Ensures (Kept s) (execInLocked t d fuel s) := by
  refine (kept_unwait t fuel s).bind fun s1 h1 => ?_
  refine (Ensures.trivial _).bind fun cur _ => ?_
  exact ensures_ok (h1.trans (kept_link t d cur s1))

theorem kept_waitingProcess (now fuel : Nat) : ∀ s : Sched ι,
    Ensures (Kept s) (waitingProcessLocked now fuel s) := by
  induction fuel with
  | zero =>
    rintro s s' hs
    cases hs
  | succ fuel ih =>
    intro s
    rw [waitingProcessLocked]
    split
    · exact ensures_ok (.refl s)
    · split
      · have hpop := kept_waitPop s
        split
        · rintro s' hs
          cases hs
        · rename_i hp
          rw [hp] at hpop
          intro s' hs
          exact (hpop.trans (kept_insert _ _)).trans (ih _ s' hs)
      · exact ensures_ok (.refl s)

/-! ## 3. The waiting list after an insertion -/

omit [DecidableEq ι] in
/-- The cell that the loop of an insertion stops at is the head, or the list has one. -/
theorem waitInsertCell_head {d : Nat} {s : Sched ι} (fuel : Nat) : ∀ cur : Cell ι,
    (cur ≠ .head → s.queue.waiting ≠ none) →
    Ensures (fun cell => cell ≠ .head → s.queue.waiting ≠ none) (waitInsertCell d s fuel cur) := by
  induction fuel with
  | zero =>
    rintro cur _ cell hcell
    cases hcell
  | succ fuel ih =>
    intro cur hcur
    rw [waitInsertCell]
    split
    · exact ensures_ok hcur
    · next t ht =>
      split
      · refine ih _ fun _ => ?_
        cases cur with
        | head =>
          have ht : s.queue.waiting = some t := ht
          rw [ht]
          exact Option.some_ne_none t
        | next u => exact hcur (by simp)
      · exact ensures_ok hcur

/-- After `pr_task_exec_in_us` has inserted its task, a task waits. -/
theorem execInLocked_waiting (t : ι) (d fuel : Nat) (s : Sched ι) :
    Ensures (fun s' => s'.queue.waiting ≠ none) (execInLocked t d fuel s) := by
  refine (Ensures.trivial _).bind fun s1 _ => ?_
  refine (waitInsertCell_head fuel .head (absurd rfl)).bind fun cur hcur => ?_
  refine ensures_ok ?_
  cases cur with
  | head => exact Option.some_ne_none t
  | next u => exact hcur (by simp)

end Picore.Task
