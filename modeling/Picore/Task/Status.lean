import Picore.Task.Refine

/-!
# One task of a queue

A component that owns a task sees whether it is in no list of its queue, in the waiting list
or in the pending list.

Results:
1. `Status`: what the calls do to one task.
2. `status_eq`: the status of a task is its place in the schedule.
3. `call_status`: what a call on a queue does to the status of each task.
-/

namespace Picore.Task

open Fuel

variable {ι : Type} {handler : ι → Bool}

/-- Where a task is: in neither list, in the waiting one with a deadline, or in the pending one. -/
inductive Status
  | idle
  | waiting
  | pending
  deriving DecidableEq, Repr

/-! ## 1. One task -/

namespace Status

/-- `pr_task_exec`. -/
def exec (_ : Status) : Status := .pending

/-- `pr_task_exec_in_us` and `pr_task_exec_in_ms`. -/
def execIn : Status → Status
  | .pending => .pending
  | _ => .waiting

/-- An alarm at the deadline of the task, or later. -/
def expire : Status → Status
  | .waiting => .pending
  | st => st

def Active (st : Status) : Prop := st ≠ .idle

instance : DecidablePred Active := fun st => inferInstanceAs (Decidable (st ≠ .idle))

@[simp] theorem active_exec (st : Status) : st.exec.Active := by
  cases st <;> decide

@[simp] theorem active_execIn (st : Status) : st.execIn.Active := by
  cases st <;> decide

@[simp] theorem active_expire (st : Status) : st.expire.Active ↔ st.Active := by
  cases st <;> decide

/-- What is true of every pending task stays true of each task. -/
theorem update_exec [DecidableEq ι] (status : ι → Status) {P : Status → Prop} (hP : P .pending)
    (u : ι) {t : ι} (h : P (status t)) : P (Function.update status u (status u).exec t) := by
  rcases eq_or_ne t u with rfl | hne
  · rw [Function.update_self]
    exact hP
  · rw [Function.update_of_ne hne]
    exact h

end Status

def Sched.status (s : Sched ι) (t : ι) : Status :=
  if (s.tasks t).pending then .pending else if (s.tasks t).waiting then .waiting else .idle

/-! ## 2. Schedules -/

variable [DecidableEq ι]

def Schedule.status (a : Schedule ι Nat) (t : ι) : Status :=
  if t ∈ a.pending then .pending else if t ∈ a.sleepers then .waiting else .idle

theorem status_eq {s : Sched ι} {a : Schedule ι Nat} (h : Represents handler s a) (t : ι) :
    s.status t = a.status t := by
  simp only [Sched.status, Schedule.status, is_pending h, is_waiting h, decide_eq_true_eq]

theorem mem_sleepers_unwait {a : Schedule ι Nat} {t u : ι} :
    u ∈ (a.unwait t).sleepers ↔ u ∈ a.sleepers ∧ u ≠ t := by
  simp only [Schedule.unwait, Schedule.restrict, Schedule.sleepers, List.mem_map, List.mem_filter,
    decide_eq_true_eq]
  constructor
  · rintro ⟨e, ⟨he, hne⟩, rfl⟩
    exact ⟨⟨e, he, rfl⟩, hne⟩
  · rintro ⟨⟨e, he, rfl⟩, hne⟩
    exact ⟨e, ⟨he, hne⟩, rfl⟩

theorem mem_sleepers_exec {a : Schedule ι Nat} {t u : ι} :
    u ∈ (a.exec t).sleepers ↔ u ∈ a.sleepers ∧ u ≠ t := by
  unfold Schedule.exec
  split
  · next hp =>
    refine ⟨fun hu => ⟨hu, ?_⟩, And.left⟩
    rintro rfl
    exact a.disjoint u hp hu
  · exact mem_sleepers_unwait

theorem mem_pending_exec_iff {a : Schedule ι Nat} {t u : ι} :
    u ∈ (a.exec t).pending ↔ u ∈ a.pending ∨ u = t := by
  rw [pending_exec]
  split
  · next hp =>
    refine ⟨.inl, fun h => h.elim id ?_⟩
    rintro rfl
    exact hp
  · exact List.mem_append.trans (or_congr_right List.mem_singleton)

theorem mem_sleepers_execIn {a : Schedule ι Nat} {t u : ι} {d : Nat} (hp : t ∉ a.pending) :
    u ∈ (a.execIn t d).sleepers ↔ u = t ∨ u ∈ a.sleepers ∧ u ≠ t := by
  constructor
  · intro hmem
    obtain ⟨e, he, rfl⟩ := List.mem_map.mp hmem
    rcases (Schedule.mem_waiting_execIn d hp).mp he with rfl | ⟨he, hne⟩
    · exact .inl rfl
    · exact .inr ⟨List.mem_map_of_mem he, hne⟩
  · rintro (rfl | ⟨hmem, hne⟩)
    · have hnew := (Schedule.mem_waiting_execIn (e := (u, d)) d hp).mpr (.inl rfl)
      exact List.mem_map_of_mem (f := Prod.fst) hnew
    · obtain ⟨e, he, rfl⟩ := List.mem_map.mp hmem
      exact List.mem_map_of_mem ((Schedule.mem_waiting_execIn d hp).mpr (.inr ⟨he, hne⟩))

theorem status_exec (a : Schedule ι Nat) (t u : ι) :
    (a.exec t).status u = if u = t then (a.status u).exec else a.status u := by
  simp only [Schedule.status, mem_pending_exec_iff, mem_sleepers_exec]
  rcases eq_or_ne u t with rfl | h
  · simp [Status.exec]
  · simp [h]

theorem status_execIn (a : Schedule ι Nat) (t u : ι) (d : Nat) :
    (a.execIn t d).status u = if u = t then (a.status u).execIn else a.status u := by
  by_cases hp : t ∈ a.pending
  · rw [Schedule.execIn, dif_pos hp]
    split
    · next h => simp [h, Schedule.status, hp, Status.execIn]
    · rfl
  · simp only [Schedule.status, pending_execIn, mem_sleepers_execIn hp]
    rcases eq_or_ne u t with rfl | h
    · simp only [hp, if_false, true_or, if_true]
      split
      · rfl
      · rfl
    · simp [h]

theorem status_expire (a : Schedule ι Nat) (now : Nat) (u : ι) :
    (a.expire now).status u = a.status u ∨ (a.expire now).status u = (a.status u).expire := by
  have hpending : u ∈ (a.expire now).pending ↔
      u ∈ a.pending ∨ u ∈ (a.waiting.filter fun e : ι × Nat => e.2 ≤ now).map Prod.fst :=
    List.mem_append
  have hold : u ∈ (a.expire now).sleepers → u ∈ a.sleepers := fun hu =>
    (List.filter_sublist.map Prod.fst).subset hu
  by_cases hp : u ∈ a.pending
  · left
    simp [Schedule.status, hp, hpending]
  · by_cases hs : u ∈ a.sleepers
    · by_cases hdue : u ∈ (a.waiting.filter fun e : ι × Nat => e.2 ≤ now).map Prod.fst
      · right
        simp [Schedule.status, hp, hs, hpending, hdue, Status.expire]
      · -- Its deadline has not come, so it still waits.
        left
        have hlater : u ∈ (a.expire now).sleepers := by
          obtain ⟨e, he, rfl⟩ := List.mem_map.mp hs
          refine List.mem_map_of_mem (List.mem_filter.mpr ⟨he, decide_eq_true fun hd => hdue ?_⟩)
          exact List.mem_map_of_mem (List.mem_filter.mpr ⟨he, decide_eq_true hd⟩)
        simp [Schedule.status, hp, hs, hpending, hdue, hlater]
    · left
      have hdue : u ∉ (a.waiting.filter fun e : ι × Nat => e.2 ≤ now).map Prod.fst := fun hu =>
        hs ((List.filter_sublist.map Prod.fst).subset hu)
      have hlater : u ∉ (a.expire now).sleepers := fun hu => hs (hold hu)
      simp only [Schedule.status, hpending, hp, hs, hdue, hlater, or_self, if_false]

theorem status_pop {a : Schedule ι Nat} (u : ι) :
    a.pop.status u = if a.pending.head? = some u then .idle else a.status u := by
  have hnodup := a.pending_nodup
  by_cases hhead : a.pending.head? = some u
  · obtain ⟨p, hp⟩ := List.head?_eq_some_iff.mp hhead
    rw [hp, List.nodup_cons] at hnodup
    have hgone : u ∉ a.pop.pending := by
      show u ∉ a.pending.tail
      rw [hp]
      exact hnodup.1
    have hsleep : u ∉ a.pop.sleepers := a.disjoint u (List.mem_of_head? hhead)
    rw [if_pos hhead, Schedule.status, if_neg hgone, if_neg hsleep]
  · have hmem : u ∈ a.pop.pending ↔ u ∈ a.pending :=
      ⟨List.mem_of_mem_tail, fun hu => mem_pending_pop hu hhead⟩
    rw [if_neg hhead, Schedule.status, Schedule.status, if_congr hmem rfl rfl]
    rfl

/-! ## 3. Calls -/

/-- What a call that returns `reply` does to the status `st` of the task `u`. An alarm may
come before the deadline of the task. -/
inductive Effect (handler : ι → Bool) (u : ι) (st : Status) : Call ι → Reply ι → Status → Prop
  | exec {reply : Reply ι} : handler u = true → Effect handler u st (.exec (some u)) reply st.exec
  | execInUs {us : Nat} {reply : Reply ι} : Effect handler u st (.execInUs u us) reply st.execIn
  | execInMs {ms : Nat} {reply : Reply ι} : Effect handler u st (.execInMs u ms) reply st.execIn
  | expire {id : Int} {reply : Reply ι} : Effect handler u st (.alarm id) reply st.expire
  | run : st = .pending → Effect handler u st .pop (.task (some u)) .idle
  | other {c : Call ι} {reply : Reply ι} : (handler u = true → c ≠ .exec (some u)) →
      (∀ us, c ≠ .execInUs u us) → (∀ ms, c ≠ .execInMs u ms) → reply ≠ .task (some u) →
      Effect handler u st c reply st

/-- What a call on a queue does to the status of each task. -/
theorem call_status {s s' : Sched ι} {a : Schedule ι Nat} (h : Represents handler s a) {sdk : Sdk}
    {c : Call ι} {reply : Reply ι} (hrun : Returns (fun fuel => c.run sdk fuel s) (reply, s'))
    (u : ι) : Effect handler u (s.status u) c reply (s'.status u) := by
  obtain ⟨rfl, h'⟩ := call_of_represents h hrun
  rw [status_eq h, status_eq h']
  cases c with
  | exec task =>
    cases task with
    | none => exact .other (by simp) (by simp) (by simp) (by simp [Schedule.call])
    | some t =>
      cases ht : handler t with
      | false =>
        simp only [Schedule.call, ht, Bool.false_eq_true, if_false]
        refine .other ?_ (by simp) (by simp) (by simp)
        rintro hu heq
        cases heq
        rw [ht] at hu
        cases hu
      | true =>
        simp only [Schedule.call, ht, if_true, status_exec]
        split
        · next heq =>
          subst heq
          exact .exec ht
        · next hne => exact .other (by simp [Ne.symm hne]) (by simp) (by simp) (by simp)
  | execInUs t us =>
    simp only [Schedule.call, status_execIn]
    split
    · next heq =>
      subst heq
      exact .execInUs
    · next hne => exact .other (by simp) (by simp [Ne.symm hne]) (by simp) (by simp)
  | execInMs t ms =>
    simp only [Schedule.call, status_execIn]
    split
    · next heq =>
      subst heq
      exact .execInMs
    · next hne => exact .other (by simp) (by simp) (by simp [Ne.symm hne]) (by simp)
  | alarm id =>
    show Effect handler u (a.status u) (.alarm id) .done ((a.expire sdk.getAbsoluteTime).status u)
    rcases status_expire a sdk.getAbsoluteTime u with heq | heq
    · rw [heq]
      exact .other (by simp) (by simp) (by simp) (by simp)
    · rw [heq]
      exact .expire
  | pop =>
    show Effect handler u (a.status u) .pop (.task a.pending.head?) (a.pop.status u)
    rw [status_pop]
    split
    · next hhead =>
      rw [hhead]
      exact .run (if_pos (List.mem_of_head? hhead))
    · next hhead => exact .other (by simp) (by simp) (by simp) (by simpa using hhead)

end Picore.Task
