import Picore.Task.Basic
import Picore.Task.Schedule

/-!
# The lists of a queue as a schedule

`Represents handler s a`: the lists, the flags and the deadlines in `s` are those
of the schedule `a`. Each list routine acts on the schedule.

Results:
1. `prTaskPendingQueueInsert_represents`, `prTaskPendingQueuePop_represents`: the
   pending list.
2. `unlink_represents`, `prTaskWaitQueueRemove_represents`,
   `prTaskWaitQueuePop_represents`: removals from the waiting list.
3. `prTaskWaitQueueInsert_represents`: the insertion into the waiting list.
-/

namespace Picore.Task

open Fuel Chain

variable {ι : Type} [DecidableEq ι] {handler : ι → Bool}

def Sched.next (s : Sched ι) (t : ι) : Option ι := (s.tasks t).next

/-- The state `s` holds the schedule `a`. Every task is bound to the queue, and
`handler` tells which of them have a handler. -/
structure Represents (handler : ι → Bool) (s : Sched ι) (a : Schedule ι Nat) : Prop where
  first : Path s.next s.queue.first a.pending none
  last : s.queue.last = a.pending.getLast?
  waiting : Path s.next s.queue.waiting a.sleepers none
  pending_flag : ∀ t, (s.tasks t).pending = true ↔ t ∈ a.pending
  waiting_flag : ∀ t, (s.tasks t).waiting = true ↔ t ∈ a.sleepers
  exec_at : ∀ e ∈ a.waiting, (s.tasks e.1).exec_at = e.2
  bound : ∀ t, (s.tasks t).queue = true
  handled : ∀ t, (s.tasks t).handler = handler t

/-- The alarm of the queue and the armed alarms are the same. -/
def SameAlarm (s s' : Sched ι) : Prop := s'.queue.alarm = s.queue.alarm ∧ s'.alarms = s.alarms

omit [DecidableEq ι] in
theorem SameAlarm.trans {s s' s'' : Sched ι} (h : SameAlarm s s') (h' : SameAlarm s' s'') :
    SameAlarm s s'' :=
  ⟨h'.1.trans h.1, h'.2.trans h.2⟩

/-! ## 1. Updates of a task -/

@[simp] theorem set_tasks_self (s : Sched ι) (t : ι) (x : PrTask ι) : (s.set t x).tasks t = x :=
  Function.update_self _ _ _

theorem set_tasks_ne (s : Sched ι) {t u : ι} (x : PrTask ι) (h : u ≠ t) :
    (s.set t x).tasks u = s.tasks u :=
  Function.update_of_ne h _ _

@[simp] theorem set_queue (s : Sched ι) (t : ι) (x : PrTask ι) : (s.set t x).queue = s.queue := rfl

/-- An update that keeps a field of its task keeps this field of every task. -/
theorem set_field {β : Type} (f : PrTask ι → β) (s : Sched ι) (t : ι) {x : PrTask ι}
    (h : f x = f (s.tasks t)) (u : ι) : f ((s.set t x).tasks u) = f (s.tasks u) := by
  by_cases hu : u = t
  · rw [hu, set_tasks_self, h]
  · rw [set_tasks_ne s x hu]

theorem set_next (s : Sched ι) (t : ι) (x : PrTask ι) :
    (s.set t x).next = Function.update s.next t x.next := by
  funext u
  by_cases hu : u = t
  · simp [Sched.next, hu]
  · simp [Sched.next, set_tasks_ne s x hu, hu]

theorem setNext_next (s : Sched ι) (t : ι) (v : Option ι) :
    (s.setNext t v).next = Function.update s.next t v :=
  set_next s t _

theorem waitLinks_assign (s : Sched ι) (cur : Cell ι) (v : Option ι) :
    (s.assign cur v).waitLinks = s.waitLinks.assign cur v := by
  cases cur with
  | head => rfl
  | next t => exact congrArg (Links.mk s.queue.waiting) (setNext_next s t v)

/-- An assignment to a cell keeps every field but `next` of every task. -/
theorem assign_field {β : Type} (f : PrTask ι → β)
    (hf : ∀ (x : PrTask ι) (v : Option ι), f { x with next := v } = f x) (s : Sched ι)
    (cur : Cell ι) (v : Option ι) (u : ι) : f ((s.assign cur v).tasks u) = f (s.tasks u) := by
  cases cur with
  | head => rfl
  | next t => exact set_field f s t (hf _ _) u

theorem assign_first (s : Sched ι) (cur : Cell ι) (v : Option ι) :
    (s.assign cur v).queue.first = s.queue.first := by
  cases cur <;> rfl

theorem assign_last (s : Sched ι) (cur : Cell ι) (v : Option ι) :
    (s.assign cur v).queue.last = s.queue.last := by
  cases cur <;> rfl

theorem assign_sameAlarm (s : Sched ι) (cur : Cell ι) (v : Option ι) :
    SameAlarm s (s.assign cur v) := by
  cases cur with
  | head => exact ⟨rfl, rfl⟩
  | next t => exact ⟨rfl, rfl⟩

/-- An assignment behind a prefix of the waiting list does not disturb a list
beside it. -/
theorem path_assign_after {s : Sched ι} {h v : Option ι} {l l1 : List ι} (hp : Path s.next h l none)
    (hdis : ∀ t ∈ l1, t ∉ l) : Path (s.assign (.after l1) v).next h l none := by
  induction l1 using List.reverseRecOn with
  | nil => exact hp
  | append_singleton l1 t _ =>
    rw [Cell.after_concat, Sched.assign, setNext_next]
    exact hp.update (hdis t (by simp))

/-! ## 2. The pending list -/

theorem linkLast_queue (task : ι) (s : Sched ι) : (linkLast task s).queue = s.queue := by
  unfold linkLast
  cases s.queue.last <;> rfl

theorem linkLast_alarms (task : ι) (s : Sched ι) : (linkLast task s).alarms = s.alarms := by
  unfold linkLast
  cases s.queue.last <;> rfl

/-- Linking the last task to a new one changes only a `next` pointer. -/
theorem linkLast_field {β : Type} (f : PrTask ι → β)
    (hf : ∀ (x : PrTask ι) (v : Option ι), f { x with next := v } = f x) (task : ι) (s : Sched ι)
    (u : ι) : f ((linkLast task s).tasks u) = f (s.tasks u) := by
  unfold linkLast
  cases s.queue.last with
  | none => rfl
  | some l => exact set_field f s l (hf _ _) u

theorem linkLast_next_none {s : Sched ι} (h : s.queue.last = none) (task : ι) :
    (linkLast task s).next = s.next := by
  simp only [linkLast, h]

theorem linkLast_next_some {s : Sched ι} {l : ι} (h : s.queue.last = some l) (task : ι) :
    (linkLast task s).next = Function.update s.next l (some task) := by
  simp only [linkLast, h, setNext_next]

/-- The task of an insertion with its flag set. -/
def marked (t : ι) (s : Sched ι) : Sched ι := s.set t { s.tasks t with pending := true }

theorem marked_field {β : Type} (f : PrTask ι → β)
    (hf : ∀ (x : PrTask ι) (b : Bool), f { x with pending := b } = f x) (t : ι) (s : Sched ι)
    (u : ι) : f ((marked t s).tasks u) = f (s.tasks u) :=
  set_field f s t (hf _ _) u

theorem marked_next (t : ι) (s : Sched ι) : (marked t s).next = s.next :=
  funext (marked_field PrTask.next (fun _ _ => rfl) t s)

/-- Apart from the flag, an insertion changes only `next` pointers. -/
theorem prTaskPendingQueueInsert_field {β : Type} (f : PrTask ι → β)
    (hf : ∀ (x : PrTask ι) (v : Option ι), f { x with next := v } = f x) (t : ι) (s : Sched ι)
    (u : ι) : f ((prTaskPendingQueueInsert t s).tasks u) = f ((marked t s).tasks u) :=
  (linkLast_field f hf t _ u).trans (set_field f (marked t s) t (hf _ _) u)

theorem prTaskPendingQueueInsert_next_none {s : Sched ι} (h : s.queue.last = none) (t : ι) :
    (prTaskPendingQueueInsert t s).next = Function.update s.next t none := by
  show (linkLast t ((marked t s).setNext t none)).next = _
  rw [@linkLast_next_none _ _ ((marked t s).setNext t none) h, setNext_next, marked_next]

theorem prTaskPendingQueueInsert_next_some {s : Sched ι} {k : ι} (h : s.queue.last = some k)
    (t : ι) : (prTaskPendingQueueInsert t s).next =
      Function.update (Function.update s.next t none) k (some t) := by
  show (linkLast t ((marked t s).setNext t none)).next = _
  rw [@linkLast_next_some _ _ ((marked t s).setNext t none) k h, setNext_next, marked_next]

theorem prTaskPendingQueueInsert_first {s : Sched ι} {l : List ι} {t : ι}
    (hl : Path s.next s.queue.first l none) (hlast : s.queue.last = l.getLast?) (ht : t ∉ l) :
    Path (prTaskPendingQueueInsert t s).next (prTaskPendingQueueInsert t s).queue.first (l ++ [t])
      none := by
  have hstart := hl.start
  rcases List.eq_nil_or_concat' l with rfl | ⟨p, k, rfl⟩
  · -- The list starts with `t`.
    have hfirst : (prTaskPendingQueueInsert t s).queue.first = some t := by
      simp [prTaskPendingQueueInsert, linkLast_queue, Sched.setNext, hstart]
    rw [prTaskPendingQueueInsert_next_none hlast, hfirst]
    exact ⟨rfl, Function.update_self _ _ _⟩
  · -- The list grows at its last node.
    rw [List.getLast?_concat] at hlast
    have hfirst : (prTaskPendingQueueInsert t s).queue.first = s.queue.first := by
      simp [prTaskPendingQueueInsert, linkLast_queue, Sched.setNext, hstart]
    have hkp : k ∉ p := ((List.nodup_concat p k).mp (by simpa using hl.nodup)).1
    have htk : t ≠ k := fun heq => ht (by simp [heq])
    have htp : t ∉ p := fun hmem => ht (by simp [hmem])
    rw [prTaskPendingQueueInsert_next_some hlast, hfirst]
    refine path_concat.mpr ⟨path_concat.mpr ⟨?_, Function.update_self _ _ _⟩, ?_⟩
    · exact ((path_concat.mp hl).1.update htp).update hkp
    · rw [Function.update_of_ne htk, Function.update_self]

/-- An insertion does not disturb a list beside the pending list. -/
theorem prTaskPendingQueueInsert_path {s : Sched ι} {h : Option ι} {l p : List ι} {t : ι}
    (hl : Path s.next h l none) (hlast : s.queue.last = p.getLast?) (ht : t ∉ l)
    (hdis : ∀ u ∈ p, u ∉ l) : Path (prTaskPendingQueueInsert t s).next h l none := by
  cases hk : s.queue.last with
  | none =>
    rw [prTaskPendingQueueInsert_next_none hk]
    exact hl.update ht
  | some k =>
    rw [hk] at hlast
    rw [prTaskPendingQueueInsert_next_some hk]
    exact (hl.update ht).update (hdis k (List.mem_of_getLast? hlast.symm))

theorem prTaskPendingQueueInsert_sameAlarm (t : ι) (s : Sched ι) :
    SameAlarm s (prTaskPendingQueueInsert t s) := by
  refine ⟨?_, linkLast_alarms t ((marked t s).setNext t none)⟩
  show (linkLast t ((marked t s).setNext t none)).queue.alarm = _
  rw [linkLast_queue]
  rfl

/-- `pr_task_pending_queue_insert` appends a task that is in no list. -/
theorem prTaskPendingQueueInsert_represents {s : Sched ι} {a : Schedule ι Nat}
    (h : Represents handler s a) {t : ι} (hp : t ∉ a.pending) (hw : t ∉ a.sleepers) :
    Represents handler (prTaskPendingQueueInsert t s) (a.append t hp hw) where
  first := prTaskPendingQueueInsert_first h.first h.last hp
  last := List.getLast?_concat.symm
  waiting := by
    have hqueue : (prTaskPendingQueueInsert t s).queue.waiting = s.queue.waiting := by
      simp [prTaskPendingQueueInsert, linkLast_queue, Sched.setNext]
    rw [hqueue]
    exact prTaskPendingQueueInsert_path h.waiting h.last hw a.disjoint
  pending_flag u := by
    rw [prTaskPendingQueueInsert_field PrTask.pending (fun _ _ => rfl)]
    by_cases hu : u = t
    · simp [hu, marked, Schedule.append]
    · rw [marked, set_tasks_ne _ _ hu, h.pending_flag]
      simp [hu, Schedule.append]
  waiting_flag u := by
    rw [prTaskPendingQueueInsert_field PrTask.waiting (fun _ _ => rfl),
      marked_field PrTask.waiting (fun _ _ => rfl)]
    exact h.waiting_flag u
  exec_at e he := by
    rw [prTaskPendingQueueInsert_field PrTask.exec_at (fun _ _ => rfl),
      marked_field PrTask.exec_at (fun _ _ => rfl)]
    exact h.exec_at e he
  bound u := by
    rw [prTaskPendingQueueInsert_field PrTask.queue (fun _ _ => rfl),
      marked_field PrTask.queue (fun _ _ => rfl)]
    exact h.bound u
  handled u := by
    rw [prTaskPendingQueueInsert_field PrTask.handler (fun _ _ => rfl),
      marked_field PrTask.handler (fun _ _ => rfl)]
    exact h.handled u

theorem prTaskPendingQueuePop_nil {s : Sched ι} {a : Schedule ι Nat} (h : Represents handler s a)
    (hnil : a.pending = []) : prTaskPendingQueuePop s = (none, s) := by
  have hfirst := h.first.start
  rw [hnil] at hfirst
  simp only [prTaskPendingQueuePop, hfirst, List.head?_nil]

/-- The statements that take the first pending task `t` out. -/
def shift (t : ι) (s : Sched ι) : Sched ι :=
  let s := { s with queue := { s.queue with
    first := (s.tasks t).next
    last := if s.queue.last = some t then none else s.queue.last } }
  s.set t { s.tasks t with next := none, pending := false }

theorem shift_field {β : Type} (f : PrTask ι → β)
    (hf : ∀ x : PrTask ι, f { x with next := none, pending := false } = f x) (t : ι) (s : Sched ι)
    (u : ι) : f ((shift t s).tasks u) = f (s.tasks u) :=
  set_field f _ t (hf _) u

theorem shift_next (t : ι) (s : Sched ι) : (shift t s).next = Function.update s.next t none :=
  set_next _ t _

theorem shift_represents {s : Sched ι} {a : Schedule ι Nat} (h : Represents handler s a) {t : ι}
    {p : List ι} (hp : a.pending = t :: p) : Represents handler (shift t s) a.pop := by
  have hpop : a.pop.pending = p := by simp [Schedule.pop, hp]
  have htp : t ∉ p := (List.nodup_cons.mp (hp ▸ a.pending_nodup)).1
  have hfirst := h.first
  have hlast := h.last
  rw [hp] at hfirst hlast
  refine ⟨?_, ?_, ?_, fun u => ?_, fun u => ?_, fun e he => ?_, fun u => ?_, fun u => ?_⟩
  · rw [shift_next, hpop]
    exact hfirst.2.update htp
  · show (if s.queue.last = some t then none else s.queue.last) = _
    rw [hpop, hlast]
    rcases List.eq_nil_or_concat' p with rfl | ⟨q, k, rfl⟩
    · simp
    · have hk : k ≠ t := fun heq => htp (by simp [heq])
      rw [← List.cons_append, List.getLast?_concat, List.getLast?_concat,
        if_neg (fun heq => hk (Option.some.inj heq))]
  · rw [shift_next]
    exact h.waiting.update (a.disjoint t (by simp [hp]))
  · rw [hpop, shift]
    by_cases hu : u = t
    · simp [hu, htp]
    · rw [set_tasks_ne _ _ hu]
      simp [h.pending_flag, hp, hu]
  · rw [shift_field PrTask.waiting (fun _ => rfl)]
    exact h.waiting_flag u
  · rw [shift_field PrTask.exec_at (fun _ => rfl)]
    exact h.exec_at e he
  · rw [shift_field PrTask.queue (fun _ => rfl)]
    exact h.bound u
  · rw [shift_field PrTask.handler (fun _ => rfl)]
    exact h.handled u

theorem prTaskPendingQueuePop_represents {s : Sched ι} {a : Schedule ι Nat}
    (h : Represents handler s a) :
    (prTaskPendingQueuePop s).1 = a.pending.head? ∧
      Represents handler (prTaskPendingQueuePop s).2 a.pop ∧
      SameAlarm s (prTaskPendingQueuePop s).2 := by
  cases hp : a.pending with
  | nil =>
    have hpop : a.pop = a := Schedule.ext (by simp [Schedule.pop, hp]) rfl
    rw [prTaskPendingQueuePop_nil h hp, hpop]
    exact ⟨rfl, h, rfl, rfl⟩
  | cons t p =>
    have hhead : s.queue.first = some t := by rw [h.first.start, hp]; rfl
    have heq : prTaskPendingQueuePop s = (some t, shift t s) := by
      simp only [prTaskPendingQueuePop, hhead]
      rfl
    rw [heq]
    exact ⟨rfl, shift_represents h hp, rfl, rfl⟩

/-! ## 3. Removals from the waiting list -/

/-- The statements that take `t` out of the waiting list at the cell `cur`. -/
def unlink (t : ι) (cur : Cell ι) (s : Sched ι) : Sched ι :=
  let s := s.assign cur (s.tasks t).next
  s.set t { s.tasks t with next := none, waiting := false, exec_at := 0 }

theorem sleepers_unwait {a : Schedule ι Nat} {t : ι} {l1 l2 : List ι}
    (hs : a.sleepers = l1 ++ t :: l2) : (a.unwait t).sleepers = l1 ++ l2 := by
  have hnd : (l1 ++ t :: l2).Nodup := hs ▸ a.waiting_nodup
  have hfilter : (a.unwait t).sleepers = a.sleepers.filter (· ≠ t) := by
    simp only [Schedule.sleepers, Schedule.unwait, Schedule.restrict, List.filter_map]
    rfl
  rw [hfilter, hs, List.filter_append, List.filter_cons_of_neg (by simp)]
  have hnot : t ∉ l1 ++ l2 := by
    rw [List.nodup_middle, List.nodup_cons] at hnd
    exact hnd.1
  rw [← List.filter_append]
  exact List.filter_eq_self.mpr fun u hu => by simpa using ne_of_mem_of_not_mem hu hnot

theorem unlink_field {β : Type} (f : PrTask ι → β) (hf : ∀ x v, f { x with next := v } = f x)
    (hf' : ∀ x, f { x with next := none, waiting := false, exec_at := 0 } = f x) (t : ι)
    (cur : Cell ι) (s : Sched ι) (u : ι) : f ((unlink t cur s).tasks u) = f (s.tasks u) :=
  (set_field f _ t (hf' _) u).trans (assign_field f hf s _ _ u)

theorem unlink_next (t : ι) (cur : Cell ι) (s : Sched ι) :
    (unlink t cur s).next = Function.update (s.assign cur (s.tasks t).next).next t none :=
  set_next _ t _

theorem unlink_waiting {s : Sched ι} {t : ι} {l1 l2 : List ι}
    (h : s.waitLinks.Holds (l1 ++ t :: l2)) :
    (unlink t (.after l1) s).waitLinks.Holds (l1 ++ l2) := by
  have hnd := Path.nodup h
  rw [List.nodup_middle, List.nodup_cons] at hnd
  have hrest : Path s.next (s.next t) l2 none := by
    obtain ⟨_, -, hp⟩ := path_append.mp h
    exact hp.2
  have hlinks : ((s.assign (.after l1) (s.tasks t).next).waitLinks).Holds (l1 ++ l2) := by
    rw [waitLinks_assign]
    exact Links.Holds.assign_after h hrest fun u hu hmem =>
      (List.nodup_append.mp hnd.2).2.2 u hu u hmem rfl
  have hpath := Path.update (v := none) hlinks hnd.1
  rw [Links.Holds, Sched.waitLinks]
  exact (show (fun u => ((unlink t (.after l1) s).tasks u).next) = _ from unlink_next _ _ _) ▸ hpath

theorem unlink_represents {s : Sched ι} {a : Schedule ι Nat} (h : Represents handler s a) {t : ι}
    {l1 l2 : List ι} (hs : a.sleepers = l1 ++ t :: l2) :
    Represents handler (unlink t (.after l1) s) (a.unwait t) := by
  have hnd : (l1 ++ t :: l2).Nodup := hs ▸ a.waiting_nodup
  rw [List.nodup_middle, List.nodup_cons] at hnd
  have hsleep := sleepers_unwait hs
  have htp : t ∉ a.pending := Schedule.not_pending (by simp [hs])
  have hdis : ∀ u ∈ l1, u ∉ a.pending := fun u hu => Schedule.not_pending (by simp [hs, hu])
  refine ⟨?_, ?_, ?_, fun u => ?_, fun u => ?_, fun e he => ?_, fun u => ?_, fun u => ?_⟩
  · have hfirst : (unlink t (.after l1) s).queue.first = s.queue.first := assign_first s _ _
    rw [unlink_next, hfirst]
    exact (path_assign_after h.first hdis).update htp
  · exact (assign_last s _ _).trans h.last
  · rw [hsleep]
    exact unlink_waiting (hs ▸ h.waiting)
  · rw [unlink_field PrTask.pending (fun _ _ => rfl) (fun _ => rfl)]
    exact h.pending_flag u
  · rw [hsleep]
    by_cases hu : u = t
    · simp only [unlink, hu, set_tasks_self]
      simpa using hnd.1
    · simp only [unlink]
      rw [set_tasks_ne _ _ hu, assign_field PrTask.waiting (fun _ _ => rfl), h.waiting_flag, hs]
      simp [hu]
  · obtain ⟨hmem, hne⟩ := List.mem_filter.mp he
    have hne' : e.1 ≠ t := by simpa using hne
    simp only [unlink]
    rw [set_tasks_ne _ _ hne', assign_field PrTask.exec_at (fun _ _ => rfl)]
    exact h.exec_at e hmem
  · rw [unlink_field PrTask.queue (fun _ _ => rfl) (fun _ => rfl)]
    exact h.bound u
  · rw [unlink_field PrTask.handler (fun _ _ => rfl) (fun _ => rfl)]
    exact h.handled u

/-- The loop walks to the cell that points to its task. -/
theorem waitRemoveLoop_eq {s : Sched ι} {t : ι} {l2 l3 : List ι} (ht : t ∉ l2) {fuel : Nat} :
    ∀ {l1 : List ι}, s.waitLinks.Holds (l1 ++ (l2 ++ t :: l3)) → l2.length < fuel →
      waitRemoveLoop t fuel (.after l1) s = .ok (unlink t (.after (l1 ++ l2)) s) := by
  induction l2 generalizing fuel with
  | nil =>
    intro l1 h hf
    obtain ⟨fuel, rfl⟩ := Nat.exists_eq_add_one_of_ne_zero (Nat.ne_of_gt hf)
    have hcur : s.waitLinks.deref (.after l1) = some t := h.deref_after
    rw [waitRemoveLoop, hcur, List.append_nil]
    exact if_pos rfl
  | cons u l2 ih =>
    intro l1 h hf
    obtain ⟨hne, ht⟩ := not_or.mp (mt List.mem_cons.mpr ht)
    obtain ⟨fuel, rfl⟩ := Nat.exists_eq_add_one_of_ne_zero (Nat.ne_of_gt (Nat.zero_lt_of_lt hf))
    have hcur : s.waitLinks.deref (.after l1) = some u := h.deref_after
    have hrest : s.waitLinks.Holds ((l1 ++ [u]) ++ (l2 ++ t :: l3)) := by simpa using h
    have hrec := ih ht hrest (Nat.lt_of_succ_lt_succ hf)
    rw [Cell.after_concat, List.append_assoc, List.singleton_append] at hrec
    rw [waitRemoveLoop, hcur]
    simp only [if_neg (Ne.symm hne)]
    exact hrec

theorem prTaskWaitQueueRemove_represents {s : Sched ι} {a : Schedule ι Nat}
    (h : Represents handler s a) {t : ι} (ht : t ∈ a.sleepers) {fuel : Nat}
    (hf : a.waiting.length ≤ fuel) :
    ∃ s', prTaskWaitQueueRemove t fuel s = .ok s' ∧ Represents handler s' (a.unwait t) ∧
      SameAlarm s s' := by
  obtain ⟨l1, l2, hs⟩ := List.append_of_mem ht
  have hlen : (l1 ++ t :: l2).length ≤ fuel := by
    rw [← hs, Schedule.sleepers, List.length_map]
    exact hf
  have hnd : (l1 ++ t :: l2).Nodup := hs ▸ a.waiting_nodup
  rw [List.nodup_middle, List.nodup_cons] at hnd
  have htl : t ∉ l1 := fun hmem => hnd.1 (List.mem_append_left _ hmem)
  have hlinks : s.waitLinks.Holds ([] ++ (l1 ++ t :: l2)) := hs ▸ h.waiting
  have hsome : s.queue.waiting ≠ none := by
    rw [h.waiting.start, hs]
    cases l1 with
    | nil => simp
    | cons u l1 => simp
  refine ⟨unlink t (.after l1) s, ?_, unlink_represents h hs, assign_sameAlarm s _ _⟩
  rw [prTaskWaitQueueRemove, if_neg hsome]
  refine waitRemoveLoop_eq htl hlinks ?_
  rw [List.length_append, List.length_cons] at hlen
  omega

theorem prTaskWaitQueuePop_represents {s : Sched ι} {a : Schedule ι Nat}
    (h : Represents handler s a) {t : ι} {d : Nat} {w : List (ι × Nat)}
    (hw : a.waiting = (t, d) :: w) :
    ∃ s', prTaskWaitQueuePop s = (some t, s') ∧ Represents handler s' (a.unwait t) ∧
      SameAlarm s s' := by
  have hs : a.sleepers = [] ++ t :: w.map Prod.fst := by simp [Schedule.sleepers, hw]
  have hhead : s.queue.waiting = some t := by rw [h.waiting.start, hs]; rfl
  refine ⟨unlink t (.after []) s, ?_, unlink_represents h hs, assign_sameAlarm s _ _⟩
  simp only [prTaskWaitQueuePop, hhead]
  rfl

/-! ## 4. The insertion into the waiting list -/

omit [DecidableEq ι] in
/-- The loop walks past the tasks with an earlier deadline. -/
theorem waitInsertCell_eq {s : Sched ι} {d : Nat} {w : List (ι × Nat)}
    (hat : ∀ e ∈ w, (s.tasks e.1).exec_at = e.2) {fuel : Nat} :
    ∀ {l1 : List ι}, s.waitLinks.Holds (l1 ++ w.map Prod.fst) → w.length < fuel →
      waitInsertCell d s fuel (.after l1) =
        .ok (.after (l1 ++ (w.takeWhile fun e => ¬d ≤ e.2).map Prod.fst)) := by
  induction w generalizing fuel with
  | nil =>
    intro l1 h hf
    obtain ⟨fuel, rfl⟩ := Nat.exists_eq_add_one_of_ne_zero (Nat.ne_of_gt hf)
    have hcur : s.waitLinks.deref (.after l1) = none := h.deref_after
    rw [waitInsertCell, hcur, List.takeWhile_nil, List.map_nil, List.append_nil]
  | cons e w ih =>
    intro l1 h hf
    obtain ⟨fuel, rfl⟩ := Nat.exists_eq_add_one_of_ne_zero (Nat.ne_of_gt (Nat.zero_lt_of_lt hf))
    rw [List.forall_mem_cons] at hat
    have hcur : s.waitLinks.deref (.after l1) = some e.1 := h.deref_after
    have hrest : s.waitLinks.Holds ((l1 ++ [e.1]) ++ w.map Prod.fst) := by simpa using h
    have hrec := ih hat.2 hrest (Nat.lt_of_succ_lt_succ hf)
    rw [waitInsertCell, hcur]
    by_cases hd : d ≤ e.2
    · simp [hat.1, hd]
    · rw [Cell.after_concat, List.append_assoc, List.singleton_append] at hrec
      simp only [hat.1, Nat.lt_of_not_le hd, if_true]
      rw [hrec, List.takeWhile_cons_of_pos (by simpa using hd), List.map_cons]

/-- The task of an insertion with its flag and its deadline set. -/
def timed (t : ι) (d : Nat) (s : Sched ι) : Sched ι :=
  s.set t { s.tasks t with exec_at := d, waiting := true }

theorem timed_field {β : Type} (f : PrTask ι → β)
    (hf : ∀ (x : PrTask ι) (d : Nat), f { x with exec_at := d, waiting := true } = f x) (t : ι)
    (d : Nat) (s : Sched ι) (u : ι) : f ((timed t d s).tasks u) = f (s.tasks u) :=
  set_field f s t (hf _ _) u

theorem timed_waitLinks (t : ι) (d : Nat) (s : Sched ι) : (timed t d s).waitLinks = s.waitLinks :=
  congrArg (Links.mk s.queue.waiting) (funext (timed_field PrTask.next (fun _ _ => rfl) t d s))

/-- The statements that put `t` into the waiting list at the cell `cur`. -/
def link (t : ι) (d : Nat) (cur : Cell ι) (s : Sched ι) : Sched ι :=
  let s := timed t d s
  let s := s.setNext t (s.waitLinks.deref cur)
  s.assign cur (some t)

/-- Apart from the deadline and the flag, an insertion changes only `next`
pointers. -/
theorem link_field {β : Type} (f : PrTask ι → β)
    (hf : ∀ (x : PrTask ι) (v : Option ι), f { x with next := v } = f x) (t : ι) (d : Nat)
    (cur : Cell ι) (s : Sched ι) (u : ι) :
    f ((link t d cur s).tasks u) = f ((timed t d s).tasks u) :=
  (assign_field f hf _ cur _ u).trans (set_field f _ t (hf _ _) u)

/-- Before the assignment to the cell, the new task points to what follows the
cell. -/
theorem link_next {s : Sched ι} {l1 l2 : List ι} (h : s.waitLinks.Holds (l1 ++ l2)) (t : ι)
    (d : Nat) :
    ∃ s2 : Sched ι, link t d (.after l1) s = s2.assign (.after l1) (some t) ∧
      s2.queue = s.queue ∧ s2.next = Function.update s.next t l2.head? := by
  have hnext : (timed t d s).next = s.next := congrArg Links.next (timed_waitLinks t d s)
  refine ⟨_, rfl, rfl, ?_⟩
  rw [setNext_next, timed_waitLinks, h.deref_after, hnext]

theorem link_waiting {s : Sched ι} {l1 l2 : List ι} (h : s.waitLinks.Holds (l1 ++ l2)) {t : ι}
    (ht : t ∉ l1 ++ l2) (d : Nat) :
    (link t d (.after l1) s).waitLinks.Holds (l1 ++ t :: l2) := by
  obtain ⟨s2, heq, hqueue, hnext⟩ := link_next h t d
  have hlinks : s2.waitLinks.Holds (l1 ++ l2) := by
    have hup := Path.update (v := l2.head?) h ht
    rw [Links.Holds, Sched.waitLinks, hqueue]
    exact (show (fun u => (s2.tasks u).next) = _ from hnext) ▸ hup
  rw [heq, waitLinks_assign]
  refine hlinks.assign_after ⟨rfl, ?_⟩ fun u hu hmem => ?_
  · obtain ⟨_, -, hrest⟩ := path_append.mp hlinks
    have hhead : s2.waitLinks.next t = l2.head? :=
      (congrFun hnext t).trans (Function.update_self _ _ _)
    rw [hhead, ← hrest.start]
    exact hrest
  · rcases List.mem_cons.mp hmem with rfl | hmem
    · exact ht (List.mem_append_left _ hu)
    · exact (List.nodup_append.mp (Path.nodup h)).2.2 u hu u hmem rfl

/-- An insertion into the waiting list does not disturb a list beside it. -/
theorem link_path {s : Sched ι} {l1 l2 l : List ι} {h : Option ι}
    (hw : s.waitLinks.Holds (l1 ++ l2)) {t : ι} (hl : Path s.next h l none) (ht : t ∉ l)
    (hdis : ∀ u ∈ l1, u ∉ l) (d : Nat) : Path (link t d (.after l1) s).next h l none := by
  obtain ⟨s2, heq, -, hnext⟩ := link_next hw t d
  rw [heq]
  refine path_assign_after ?_ hdis
  rw [hnext]
  exact hl.update ht

omit [DecidableEq ι] in
theorem waiting_insert {a : Schedule ι Nat} {t : ι} {d : Nat} (hp : t ∉ a.pending)
    (hw : t ∉ a.sleepers) :
    (a.insert t d hp hw).waiting =
      (a.waiting.takeWhile fun e => ¬d ≤ e.2) ++
        (t, d) :: (a.waiting.dropWhile fun e => ¬d ≤ e.2) :=
  List.orderedInsert_eq_take_drop _ _ _

/-- `pr_task_wait_queue_insert` inserts a task that is in no list. -/
theorem prTaskWaitQueueInsert_represents {s : Sched ι} {a : Schedule ι Nat}
    (h : Represents handler s a) {t : ι} (d : Nat) (hp : t ∉ a.pending) (hw : t ∉ a.sleepers)
    {fuel : Nat} (hf : a.waiting.length < fuel) :
    ∃ s', prTaskWaitQueueInsert t d fuel s = .ok s' ∧
      Represents handler s' (a.insert t d hp hw) ∧ SameAlarm s s' := by
  have hinsert := waiting_insert (d := d) hp hw
  have hsplit := List.takeWhile_append_dropWhile (p := fun e => ¬d ≤ e.2) (l := a.waiting)
  have hcell : waitInsertCell d s fuel (.after []) = _ := waitInsertCell_eq h.exec_at h.waiting hf
  rw [List.nil_append] at hcell
  generalize (a.waiting.takeWhile fun e => ¬d ≤ e.2) = w1 at hinsert hsplit hcell
  generalize (a.waiting.dropWhile fun e => ¬d ≤ e.2) = w2 at hinsert hsplit
  have hsleep : a.sleepers = w1.map Prod.fst ++ w2.map Prod.fst := by
    rw [← List.map_append, hsplit, Schedule.sleepers]
  have hsleep' : (a.insert t d hp hw).sleepers = w1.map Prod.fst ++ t :: w2.map Prod.fst := by
    rw [Schedule.sleepers, hinsert, List.map_append, List.map_cons]
  have hlinks : s.waitLinks.Holds (w1.map Prod.fst ++ w2.map Prod.fst) := hsleep ▸ h.waiting
  have hfield := fun {β : Type} (f : PrTask ι → β) hf =>
    @link_field _ _ β f hf t d (.after (w1.map Prod.fst)) s
  refine ⟨link t d (.after (w1.map Prod.fst)) s, ?_, ⟨?_, ?_, ?_, fun u => ?_, fun u => ?_,
    fun e he => ?_, fun u => ?_, fun u => ?_⟩, assign_sameAlarm (Sched.setNext _ _ _) _ _⟩
  · rw [prTaskWaitQueueInsert, ← Cell.after_nil, hcell]
    rfl
  · have hfirst : (link t d (.after (w1.map Prod.fst)) s).queue.first = s.queue.first :=
      assign_first _ _ _
    rw [hfirst]
    refine link_path hlinks h.first hp (fun u hu => ?_) d
    exact Schedule.not_pending (by rw [hsleep]; exact List.mem_append_left _ hu)
  · exact (assign_last _ _ _).trans h.last
  · rw [hsleep']
    exact link_waiting hlinks (hsleep ▸ hw) d
  · rw [hfield PrTask.pending (fun _ _ => rfl), timed_field PrTask.pending (fun _ _ => rfl)]
    exact h.pending_flag u
  · rw [hfield PrTask.waiting (fun _ _ => rfl), hsleep']
    by_cases hu : u = t
    · simp [hu, timed]
    · rw [timed, set_tasks_ne _ _ hu, h.waiting_flag, hsleep]
      simp [hu]
  · rw [hfield PrTask.exec_at (fun _ _ => rfl)]
    rcases (List.mem_orderedInsert Schedule.Due).mp he with rfl | he
    · rw [timed, set_tasks_self]
    · have hne : e.1 ≠ t := ne_of_mem_of_not_mem (List.mem_map_of_mem he) hw
      rw [timed, set_tasks_ne _ _ hne]
      exact h.exec_at e he
  · rw [hfield PrTask.queue (fun _ _ => rfl), timed_field PrTask.queue (fun _ _ => rfl)]
    exact h.bound u
  · rw [hfield PrTask.handler (fun _ _ => rfl), timed_field PrTask.handler (fun _ _ => rfl)]
    exact h.handled u

end Picore.Task
