import Picore.Task.Deadlock
import Picore.Task.Frame
import Picore.Task.Interleave

/-!
# The lock makes the sections atomic

Two systems run the calls of several contexts. In one the lock of the queue is taken and
released, in the other a locked section is one step.

Results:
1. `step_binding`: no step gives a task another handler or queue.
2. `step_sections`: a step with the lock is a step with atomic sections, or none.
   `locking_refines`: so is a run in which `add_alarm_at` runs no callback.
-/

namespace Picore.Task.Deadlock

open Fuel Transition

variable {κ ι : Type} [DecidableEq κ] [DecidableEq ι] {handler : ι → Bool}

/-! ## 1. Handlers and queues of tasks -/

/-- Whether a task has a handler and a queue. -/
def binding (s : Sched ι) (t : ι) : Bool × Bool := ((s.tasks t).handler, (s.tasks t).queue)

omit [DecidableEq ι] in
theorem Kept.binding {s s' : Sched ι} (h : Kept s s') : binding s' = binding s :=
  funext fun t => Prod.ext (h.handler t) (h.queue t)

omit [DecidableEq ι] in
theorem binding_arm (sdk : Sdk) (s : Sched ι) :
    Ensures (fun s' => binding s' = binding s) (rescheduleArm sdk s) := by
  rw [rescheduleArm]
  split
  · rintro s' hs
    cases hs
  · exact ensures_ok rfl

theorem step_binding {s s' : Contexts κ ι} {l : κ × Act ι} (hs : Step s l s') :
    binding s'.sched = binding s.sched := by
  cases hs with
  | leaveExec _ hret =>
    obtain ⟨fuel, hret⟩ := hret
    exact Kept.binding (kept_execLocked _ fuel _ _ hret)
  | leaveIn _ hret =>
    obtain ⟨fuel, hret⟩ := hret
    exact Kept.binding (kept_execInLocked _ _ fuel _ _ hret)
  | leaveExpire _ hret =>
    obtain ⟨fuel, hret⟩ := hret
    exact Kept.binding (kept_waitingProcess _ fuel _ _ hret)
  | leavePop _ => exact Kept.binding (kept_pop _)
  | arm _ _ _ harm => exact binding_arm _ _ _ harm
  | _ => rfl

/-! ## 2. Sections -/

/-- Where a call stands when its locked section is one step. -/
def Pc.point : Pc ι → Task.Pc ι
  | .locking (.execIn task) | .inside (.execIn task) => .tested task
  | .locking (.expire _) | .inside (.expire _) => .expiring
  | .locking .arm | .inside .arm => .arming
  | .reschedule => .reschedule
  | .cancelling => .cancelling
  | .checking => .checking
  | _ => .idle

def top : List (Pc ι) → Task.Pc ι
  | [] => .idle
  | pc :: _ => pc.point

def Contexts.sections (s : Contexts κ ι) : Task.Contexts κ ι where
  sched := s.sched
  pc k := top (s.stack k)

/-- The task of a call that has tested its pointers has them. -/
def Pc.Bound (s : Sched ι) : Pc ι → Prop
  | .locking (.exec task) | .inside (.exec task) => binding s task = (true, true)
  | .locking (.execIn task) | .inside (.execIn task) => (binding s task).2 = true
  | .calling => False
  | _ => True

/-- Every context is in one call at most, none of them in `add_alarm_at`. -/
structure Plain (s : Contexts κ ι) : Prop where
  single : ∀ k, (s.stack k).length ≤ 1
  bound : ∀ k, ∀ pc ∈ s.stack k, pc.Bound s.sched

omit [DecidableEq ι] in
theorem sections_to (s : Contexts κ ι) (k : κ) (stack : List (Pc ι)) (lock : Option κ)
    (sched : Sched ι) : (s.to k stack lock sched).sections = s.sections.to k (top stack) sched := by
  have hpc : (fun j => top (Function.update s.stack k stack j)) =
      Function.update (fun j => top (s.stack j)) k (top stack) := by
    funext j
    rcases eq_or_ne j k with rfl | hj
    · rw [Function.update_self, Function.update_self]
    · rw [Function.update_of_ne hj, Function.update_of_ne hj]
  simp only [Contexts.sections, Contexts.to, Task.Contexts.to, hpc]

omit [DecidableEq ι] in
/-- A step that only moves a context inside its section is none. -/
theorem sections_same {s : Contexts κ ι} {k : κ} {stack : List (Pc ι)}
    (htop : top stack = top (s.stack k)) (lock : Option κ) :
    (s.to k stack lock s.sched).sections = s.sections := by
  rw [sections_to, htop]
  exact congrArg (Task.Contexts.mk s.sched) (Function.update_eq_self k _)

omit [DecidableEq κ] [DecidableEq ι] in
theorem bound_of_binding {s s' : Sched ι} (h : binding s' = binding s) {pc : Pc ι}
    (hpc : pc.Bound s) : pc.Bound s' := by
  unfold Pc.Bound at hpc ⊢
  rw [h]
  exact hpc

theorem step_plain {s s' : Contexts κ ι} {l : κ × Act ι} (h : Plain s) (hs : Step s l s')
    (hok : Timely s l) : Plain s' := by
  refine ⟨step_single h.single hs hok, ?_⟩
  have hbinding := step_binding hs
  have hto : ∀ {k stack lock sched}, binding sched = binding s.sched →
      (∀ pc ∈ stack, pc.Bound sched) → ∀ j, ∀ pc ∈ (s.to k stack lock sched).stack j,
        pc.Bound sched := by
    intro k stack lock sched hb hstack j pc hpc
    rcases eq_or_ne j k with rfl | hj
    · rw [Contexts.to_stack] at hpc
      exact hstack pc hpc
    · have hpc : pc ∈ Function.update s.stack k stack j := hpc
      rw [Function.update_of_ne hj] at hpc
      exact bound_of_binding hb (h.bound j pc hpc)
  have hrest : ∀ {k pc rest sched}, s.stack k = pc :: rest → binding sched = binding s.sched →
      ∀ pc ∈ rest, pc.Bound sched := by
    intro k pc rest sched hk hb pc' hpc'
    exact bound_of_binding hb (h.bound k pc' (by rw [hk]; exact List.mem_cons_of_mem _ hpc'))
  have hcons : ∀ {k pc rest sched} (pc' : Pc ι), s.stack k = pc :: rest →
      binding sched = binding s.sched → pc'.Bound sched → ∀ pc ∈ pc' :: rest, pc.Bound sched := by
    intro k pc rest sched pc' hk hb hpc' pc'' hmem
    rcases List.mem_cons.mp hmem with rfl | hmem
    · exact hpc'
    · exact hrest hk hb pc'' hmem
  cases hs with
  | exec _ hh hq =>
    refine hto hbinding fun pc hpc => ?_
    rw [List.mem_singleton.mp hpc]
    exact Prod.ext hh hq
  | execIn _ hq =>
    refine hto hbinding ?_
    split
    · simp
    · intro pc hpc
      rw [List.mem_singleton.mp hpc]
      exact hq
  | alarm _ =>
    refine hto hbinding fun pc hpc => ?_
    rw [List.mem_singleton.mp hpc]
    exact trivial
  | pop _ =>
    refine hto hbinding fun pc hpc => ?_
    rw [List.mem_singleton.mp hpc]
    exact trivial
  | @lock k sec rest hk _ =>
    refine hto hbinding (hcons _ hk hbinding ?_)
    have hsec : (Pc.locking sec).Bound s.sched := h.bound k _ (Contexts.mem_stack hk)
    cases sec <;> exact hsec
  | leaveExec hk _ =>
    refine hto hbinding ?_
    split
    · exact hcons .reschedule hk hbinding trivial
    · exact hrest hk hbinding
  | leaveIn hk _ => exact hto hbinding (hcons .reschedule hk hbinding trivial)
  | leaveExpire hk _ => exact hto hbinding (hcons .reschedule hk hbinding trivial)
  | leavePop hk => exact hto hbinding (hrest hk hbinding)
  | readAlarm hk =>
    refine hto hbinding ?_
    split
    · exact hcons .cancelling hk hbinding trivial
    · exact hcons .checking hk hbinding trivial
  | cancel hk => exact hto hbinding (hcons .checking hk hbinding trivial)
  | readWaiting hk =>
    refine hto hbinding ?_
    split
    · exact hrest hk hbinding
    · exact hcons (.locking .arm) hk hbinding trivial
  | arm hk _ _ _ => exact hto hbinding (hrest hk hbinding)
  | @call _ _ t _ _ hw hfires =>
    rw [hok t hw] at hfires
    cases hfires
  | @returned k rest id hk =>
    exact (h.bound k _ (Contexts.mem_stack hk)).elim

/-- A step with the lock is a step with atomic sections, or none. -/
theorem step_sections {s s' : Contexts κ ι} {l : κ × Act ι} (h : Plain s) (hs : Step s l s')
    (hok : Timely s l) :
    s'.sections = s.sections ∨ ∃ a, Task.Step s.sections a s'.sections := by
  have hpc : ∀ {k stack}, s.stack k = stack → s.sections.pc k = top stack :=
    fun hk => congrArg top hk
  cases hs with
  | exec hk _ _ => exact .inl (sections_same (by rw [hk]; rfl) _)
  | @execIn k task hk _ =>
    refine .inr ⟨(k, .test task), ?_⟩
    have htest : Task.Step s.sections (k, .test task) (s.sections.to k
        (if (s.sched.tasks task).pending then .idle else .tested task) s.sched) := .test (hpc hk)
    rw [sections_to]
    split
    · rwa [if_pos ‹_›] at htest
    · rwa [if_neg ‹_›] at htest
  | @alarm k id now hk =>
    refine .inr ⟨(k, .fire id), ?_⟩
    rw [sections_to]
    exact .fire (hpc hk)
  | pop hk => exact .inl (sections_same (by rw [hk]; rfl) _)
  | @lock k sec rest hk _ =>
    refine .inl (sections_same ?_ _)
    rw [hk]
    cases sec <;> rfl
  | @leaveExec k task rest reschedule sched hk hret =>
    obtain rfl := rest_eq_nil h.single hk
    have hbound : binding s.sched task = (true, true) :=
      h.bound k _ (Contexts.mem_stack hk)
    refine .inr ⟨(k, .exec task), ?_⟩
    have hexec := Task.Step.exec (s := s.sections) (hpc hk) (congrArg Prod.fst hbound)
      (congrArg Prod.snd hbound) hret
    rw [sections_to]
    cases reschedule with
    | false => exact hexec
    | true => exact hexec
  | @leaveIn k task rest deadline sched hk hret =>
    obtain rfl := rest_eq_nil h.single hk
    have hbound : (binding s.sched task).2 = true :=
      h.bound k _ (Contexts.mem_stack hk)
    refine .inr ⟨(k, .enter deadline), ?_⟩
    rw [sections_to]
    exact .enter (hpc hk) hbound hret
  | @leaveExpire k now rest sched hk hret =>
    refine .inr ⟨(k, .expire now), ?_⟩
    rw [sections_to]
    exact .expire (hpc hk) hret
  | @leavePop k rest hk =>
    obtain rfl := rest_eq_nil h.single hk
    refine .inr ⟨(k, .pop), ?_⟩
    rw [sections_to]
    exact .pop (hpc hk)
  | @readAlarm k rest hk =>
    have hread : Task.Step s.sections (k, .readAlarm) (s.sections.to k
        (if s.sched.queue.alarm ≥ 0 then .cancelling else .checking) s.sched) := .readAlarm (hpc hk)
    refine .inr ⟨(k, .readAlarm), ?_⟩
    rw [sections_to]
    split
    · rwa [if_pos ‹_›] at hread
    · rwa [if_neg ‹_›] at hread
  | @cancel k rest hk =>
    refine .inr ⟨(k, .cancel), ?_⟩
    rw [sections_to]
    exact .cancel (hpc hk)
  | @readWaiting k rest hk =>
    obtain rfl := rest_eq_nil h.single hk
    have hread : Task.Step s.sections (k, .readWaiting) (s.sections.to k
        (if s.sched.queue.waiting = none then .idle else .arming) s.sched) := .readWaiting (hpc hk)
    refine .inr ⟨(k, .readWaiting), ?_⟩
    rw [sections_to]
    split
    · rwa [if_pos ‹_›] at hread
    · rwa [if_neg ‹_›] at hread
  | @arm k rest t sdk sched hk _ _ harm =>
    obtain rfl := rest_eq_nil h.single hk
    refine .inr ⟨(k, .arm sdk.toSdk), ?_⟩
    rw [sections_to]
    exact .arm (hpc hk) harm
  | @call _ _ t _ _ hw hfires =>
    rw [hok t hw] at hfires
    cases hfires
  | @returned k rest id hk =>
    exact (h.bound k _ (Contexts.mem_stack hk)).elim

/-- A run in which `add_alarm_at` runs no callback is one of contexts whose locked sections
are atomic. -/
theorem locking_refines (handler : ι → Bool) {s : Contexts κ ι}
    (h : ((locking κ handler).guard Timely).Reachable s) :
    (interleaving κ handler).Reachable s.sections := by
  refine Lts.Reachable.simulation (I := Plain) Contexts.sections ?_ ?_ h
  · rintro s ⟨hfresh, -, hstack⟩
    refine ⟨⟨fun k => ?_, fun k pc hpc => ?_⟩, hfresh, fun k => congrArg top (hstack k)⟩
    · rw [hstack]
      exact Nat.zero_le 1
    · rw [hstack] at hpc
      cases hpc
  · exact fun s l t hplain hs =>
      ⟨step_plain hplain hs.1 hs.2, step_sections hplain hs.1 hs.2⟩

end Picore.Task.Deadlock
