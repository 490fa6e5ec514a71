import Picore.Task.Refine
import Picore.Lib.Transition

/-!
# The order of the handlers

Handlers and other contexts make calls on one queue, one at a time. Two histories are
kept next to the queue: the tasks that went from not pending to pending, and the tasks
that were taken out for their handlers to run. A handler that runs is in no way special:
its calls come between two others, also while the queue is drained.

Results:
1. `loop_expires`, `expires_eq`: the tasks that an alarm makes pending, in order.
2. `step_service`: what one call adds to the histories.
3. `round_robin`: handlers run in the order of the requests, each once, and a task that is
   put back waits for those in front of it.
-/

namespace Picore.Task

open Fuel Transition

variable {ι : Type} [DecidableEq ι] {handler : ι → Bool}

/-- A run of the loop of `queue_waiting_process`, and the tasks that it moves. -/
inductive Expires (now : Nat) : Sched ι → List ι → Sched ι → Prop
  | stop {s : Sched ι} : (∀ t, s.queue.waiting = some t → ¬(s.tasks t).exec_at ≤ now) →
      Expires now s [] s
  | move {s s' : Sched ι} {t : ι} {ts : List ι} : s.queue.waiting = some t →
      (s.tasks t).exec_at ≤ now →
      Expires now (prTaskPendingQueueInsert t (prTaskWaitQueuePop s).2) ts s' →
      Expires now s (t :: ts) s'

/-- The tasks that a call from `s` to `s'` makes pending, in order. -/
def Requests (sdk : Sdk) (s s' : Sched ι) : Call ι → List ι → Prop
  | .exec (some t), ts =>
    ts = if (s.tasks t).pending = false ∧ (s'.tasks t).pending = true then [t] else []
  | .alarm id, ts => ∃ s1, Expires sdk.getAbsoluteTime (Call.ack s (.alarm id)) ts s1
  | _, ts => ts = []

def Reply.served : Reply ι → List ι
  | .task (some t) => [t]
  | _ => []

/-- The queue and its histories: the tasks that went from not pending to pending, and
those whose handlers were run. -/
structure Service (ι : Type) where
  sched : Sched ι
  requested : List ι
  served : List ι

/-- The queue with a record of the tasks that were asked for, and of those that the scheduler has
run, both in the order of the calls. -/
def service (handler : ι → Bool) : Lts (Service ι) (Sdk × Call ι) where
  init s := Fresh handler s.sched ∧ s.requested = [] ∧ s.served = []
  step s l s' := ∃ reply ts, Returns (fun fuel => l.2.run l.1 fuel s.sched) (reply, s'.sched) ∧
    Requests l.1 s.sched s'.sched l.2 ts ∧
    s'.requested = s.requested ++ ts ∧ s'.served = s.served ++ reply.served

/-! ## 1. Expiry -/

theorem loop_expires (now : Nat) {fuel : Nat} : ∀ {s s' : Sched ι},
    waitingProcessLocked now fuel s = .ok s' → ∃ ts, Expires now s ts s' := by
  induction fuel with
  | zero =>
    intro s s' h
    cases h
  | succ fuel ih =>
    intro s s' h
    rw [waitingProcessLocked] at h
    cases hw : s.queue.waiting with
    | none =>
      rw [hw] at h
      cases h
      exact ⟨[], .stop fun t ht => by rw [hw] at ht; cases ht⟩
    | some t =>
      rw [hw] at h
      by_cases hd : (s.tasks t).exec_at ≤ now
      · have hpop : (prTaskWaitQueuePop s).1 = some t := by rw [prTaskWaitQueuePop, hw]
        simp only [hd, if_true] at h
        rw [← Prod.eta (prTaskWaitQueuePop s), hpop] at h
        obtain ⟨ts, hts⟩ := ih h
        exact ⟨t :: ts, .move hw hd hts⟩
      · simp only [hd, if_false] at h
        cases h
        refine ⟨[], .stop fun u hu => ?_⟩
        rw [hw] at hu
        cases hu
        exact hd

/-- The tasks that `queue_waiting_process` makes pending are the waiting ones whose deadlines have
come, in the order of the deadlines. -/
theorem expires_eq {now : Nat} {s s' : Sched ι} {ts : List ι} (h : Expires now s ts s') :
    ∀ {a : Schedule ι Nat}, Represents handler s a →
      ts = (a.waiting.filter fun e => e.2 ≤ now).map Prod.fst := by
  induction h with
  | @stop s hstop =>
    intro a ha
    have hidle : a.expire now = a := by
      refine Schedule.expire_idle fun e he => ?_
      have hmem : e ∈ a.waiting := List.mem_of_head? he
      rw [← ha.exec_at e hmem]
      refine hstop e.1 ?_
      rw [ha.waiting.start, Schedule.sleepers, List.head?_map, he]
      rfl
    have hpending := congrArg Schedule.pending hidle
    exact (List.append_right_eq_self.mp hpending).symm
  | @move s s' t ts hhead hd _ ih =>
    intro a ha
    cases hw : a.waiting with
    | nil =>
      rw [ha.waiting.start, Schedule.sleepers, hw] at hhead
      cases hhead
    | cons e w =>
      obtain ⟨u, d⟩ := e
      have hsleep : a.sleepers = u :: w.map Prod.fst := by rw [Schedule.sleepers, hw]; rfl
      rw [ha.waiting.start, hsleep] at hhead
      cases hhead
      have hat : (s.tasks t).exec_at = d := ha.exec_at (t, d) (by simp [hw])
      rw [hat] at hd
      have hp : t ∉ a.pending := Schedule.not_pending (by simp [hsleep])
      obtain ⟨s1, hpop, h1, -⟩ := prTaskWaitQueuePop_represents ha hw
      have h2 := prTaskPendingQueueInsert_represents h1 (t := t) hp (a.not_mem_sleepers_unwait t)
      rw [hpop] at ih
      have hrest : ((a.unwait t).append t hp (a.not_mem_sleepers_unwait t)).waiting = w :=
        Schedule.waiting_unwait_head hw
      rw [ih h2, hrest]
      simp [hd]

/-! ## 2. One call -/

omit [DecidableEq ι] in
theorem not_pending_iff {s : Sched ι} {a : Schedule ι Nat} (h : Represents handler s a)
    (t : ι) : (s.tasks t).pending = false ↔ t ∉ a.pending := by
  rw [← h.pending_flag, Bool.not_eq_true]

/-- A call makes its requests pending behind the others, and takes the task that it
serves out in front. -/
theorem requests_pending {sdk : Sdk} {c : Call ι} {s s' : Sched ι} {a : Schedule ι Nat}
    {ts : List ι} (ha : Represents handler s a)
    (ha' : Represents handler s' (a.call handler sdk c).2) (h : Requests sdk s s' c ts) :
    (a.call handler sdk c).1.served ++ (a.call handler sdk c).2.pending = a.pending ++ ts := by
  cases c with
  | exec task =>
    cases task with
    | none =>
      obtain rfl : ts = [] := h
      exact (List.append_nil _).symm
    | some t =>
      simp only [Requests, not_pending_iff ha, ha'.pending_flag] at h
      subst h
      cases ht : handler t with
      | false => simp [Schedule.call, ht, Reply.served]
      | true =>
        by_cases hp : t ∈ a.pending
        · simp [Schedule.call, ht, Reply.served, pending_exec, hp]
        · simp [Schedule.call, ht, Reply.served, pending_exec, hp]
  | execInUs t us =>
    obtain rfl : ts = [] := h
    exact (pending_execIn a t _).trans (List.append_nil _).symm
  | execInMs t ms =>
    obtain rfl : ts = [] := h
    exact (pending_execIn a t _).trans (List.append_nil _).symm
  | alarm id =>
    obtain ⟨s1, h1⟩ := h
    have hack : Represents handler (Call.ack s (.alarm id)) a := ha.alarm rfl ⟨-1, rfl⟩
    rw [expires_eq h1 hack]
    rfl
  | pop =>
    obtain rfl : ts = [] := h
    rw [List.append_nil]
    show (Reply.task a.pending.head?).served ++ a.pending.tail = a.pending
    cases a.pending with
    | nil => rfl
    | cons t p => rfl

theorem served_of_requests {sdk : Sdk} {c : Call ι} {s s' : Sched ι} {ts : List ι}
    (a : Schedule ι Nat) (h : Requests sdk s s' c ts) (hne : ts ≠ []) :
    (a.call handler sdk c).1.served = [] := by
  cases c with
  | exec task =>
    cases task with
    | none => rfl
    | some t =>
      rw [Schedule.call]
      split
      · rfl
      · rfl
  | pop => exact absurd h hne
  | _ => rfl

theorem step_service {s s' : Service ι} {a : Schedule ι Nat} (ha : Represents handler s.sched a)
    {sdk : Sdk} {c : Call ι} (h : (service handler).step s (sdk, c) s') :
    ∃ ts served, s'.requested = s.requested ++ ts ∧ s'.served = s.served ++ served ∧
      Requests sdk s.sched s'.sched c ts ∧ (ts ≠ [] → served = []) ∧
      Represents handler s'.sched (a.call handler sdk c).2 ∧
      served ++ (a.call handler sdk c).2.pending = a.pending ++ ts := by
  obtain ⟨reply, ts, hret, hts, hreq, hserved⟩ := h
  obtain ⟨rfl, ha'⟩ := call_of_represents ha hret
  exact ⟨ts, _, hreq, hserved, hts, served_of_requests a hts, ha', requests_pending ha ha' hts⟩

/-- The pending tasks are the requests that are not served yet. -/
theorem service_invariant {s : Service ι} (h : (service handler).Reachable s) :
    ∃ a, Represents handler s.sched a ∧ s.requested = s.served ++ a.pending := by
  refine h.invariant (I := fun s => ∃ a, Represents handler s.sched a ∧
    s.requested = s.served ++ a.pending) ?_ ?_
  · rintro s ⟨hfresh, hreq, hserved⟩
    exact ⟨.empty, hfresh.represents, by rw [hreq, hserved]; rfl⟩
  · rintro s ⟨sdk, c⟩ s' ⟨a, ha, hhist⟩ hstep
    obtain ⟨ts, served, hreq, hserved, -, -, ha', hpending⟩ := step_service ha hstep
    refine ⟨_, ha', ?_⟩
    rw [hreq, hserved, hhist, List.append_assoc, List.append_assoc, hpending]

theorem service_total {s : Service ι} (h : (service handler).Reachable s) (sdk : Sdk)
    (c : Call ι) : ∃ s', (service handler).step s (sdk, c) s' := by
  obtain ⟨a, ha, -⟩ := service_invariant h
  obtain ⟨sched, hrun, -⟩ := call_represents sdk c ha (Nat.lt_succ_self _)
  have hts : ∃ ts, Requests sdk s.sched sched c ts := by
    cases c with
    | exec task =>
      cases task with
      | none => exact ⟨[], rfl⟩
      | some t => exact ⟨_, rfl⟩
    | alarm id =>
      have hack : Represents handler (Call.ack s.sched (.alarm id)) a := ha.alarm rfl ⟨-1, rfl⟩
      obtain ⟨s1, hloop, -⟩ :=
        waitingProcessLocked_represents sdk.getAbsoluteTime hack rfl (Nat.lt_succ_self _)
      obtain ⟨ts, hts⟩ := loop_expires _ hloop
      exact ⟨ts, s1, hts⟩
    | _ => exact ⟨[], rfl⟩
  obtain ⟨ts, hts⟩ := hts
  exact ⟨⟨sched, s.requested ++ ts, s.served ++ _⟩, _, ts, ⟨_, hrun⟩, hts, rfl, rfl⟩

/-- `pr_task_exec` leaves a task that is already pending where it is, whatever else it returns. -/
theorem exec_pending {s : Sched ι} {t : ι} (h : (s.tasks t).pending = true) (sdk : Sdk)
    (fuel : Nat) : ∃ err, (Call.exec (some t)).run sdk fuel s = .ok (.status err, s) := by
  cases hh : (s.tasks t).handler with
  | false => exact ⟨-1, by simp [Call.run, prTaskExec, hh]⟩
  | true =>
    cases hq : (s.tasks t).queue with
    | false => exact ⟨-1, by simp [Call.run, prTaskExec, hh, hq]⟩
    | true => exact ⟨0, by simp [Call.run, prTaskExec, hh, hq, execLocked, h]⟩

/-! ## 3. Runs -/

omit [DecidableEq ι] in
/-- The first occurrence in a list determines what is in front of it. -/
theorem front_unique {t : ι} {p q x y : List ι} (h : p ++ t :: x = q ++ t :: y) (hp : t ∉ p)
    (hq : t ∉ q) : p = q := by
  induction p generalizing q with
  | nil =>
    cases q with
    | nil => rfl
    | cons u q =>
      obtain ⟨rfl, -⟩ := List.cons.inj h
      exact absurd List.mem_cons_self hq
  | cons u p ih =>
    cases q with
    | nil =>
      obtain ⟨rfl, -⟩ := List.cons.inj h
      exact absurd List.mem_cons_self hp
    | cons v q =>
      obtain ⟨rfl, hrest⟩ := List.cons.inj h
      rw [ih hrest (List.not_mem_of_not_mem_cons hp) (List.not_mem_of_not_mem_cons hq)]

theorem requested_prefix {s t : Service ι} (hs : (service handler).Reachable s)
    (h : ((service handler).after s).Reachable t) : s.requested <+: t.requested := by
  refine h.invariant (I := fun t => s.requested <+: t.requested) ?_ ?_
  · rintro t rfl
    exact List.prefix_rfl
  · rintro u l v hu ⟨reply, ts, -, -, hreq, -⟩
    rw [hreq]
    exact hu.trans (List.prefix_append _ _)

/-- When a task is served, those that were pending in front of it are what was served
since it was put back. -/
theorem served_since {s s' s'' : Service ι} (h : (service handler).Reachable s) {sdk : Sdk}
    {c : Call ι} (hstep : (service handler).step s (sdk, c) s') {ts₁ ts₂ w : List ι} {t : ι}
    (hreq : s'.requested = s.requested ++ ts₁ ++ t :: ts₂)
    (hrun : ((service handler).after s').Reachable s'')
    (hserved : s''.served = s'.served ++ w ++ [t]) (hw : t ∉ w) :
    ∃ a, Represents handler s.sched a ∧ w = a.pending ++ ts₁ ∧ w.Nodup := by
  obtain ⟨a, ha, hhist⟩ := service_invariant h
  obtain ⟨ts, out, hts, hout, -, hnone, -, hpending⟩ := step_service ha hstep
  obtain rfl : ts = ts₁ ++ t :: ts₂ := by
    rw [hts, List.append_assoc] at hreq
    exact List.append_cancel_left hreq
  obtain rfl : out = [] := hnone (by simp)
  rw [List.append_nil] at hout
  -- The queue behind the call, up to the task.
  have hnodup := (a.call handler sdk c).2.pending_nodup
  rw [← List.nil_append (a.call handler sdk c).2.pending, hpending, ← List.append_assoc] at hnodup
  have hfront : t ∉ a.pending ++ ts₁ := fun ht =>
    List.disjoint_of_nodup_append hnodup ht List.mem_cons_self
  -- Both histories at the end, counted from what was served before the call.
  obtain ⟨b, -, hhist''⟩ := service_invariant ((h.step hstep).after hrun)
  obtain ⟨more, hmore⟩ := requested_prefix (h.step hstep) hrun
  have hboth :=
    calc s.served ++ ((a.pending ++ ts₁) ++ t :: (ts₂ ++ more))
        = s'.requested ++ more := by rw [hreq, hhist]; simp
      _ = s''.requested := hmore
      _ = s''.served ++ b.pending := hhist''
      _ = s.served ++ (w ++ t :: b.pending) := by rw [hserved, hout]; simp
  obtain rfl := front_unique (List.append_cancel_left hboth) hfront hw
  exact ⟨a, ha, rfl, hnodup.of_append_left⟩

/-- The requests of a call are the tasks that it takes from not pending to pending. -/
theorem requests_iff {s s' : Service ι} (h : (service handler).Reachable s) {sdk : Sdk}
    {c : Call ι} (hstep : (service handler).step s (sdk, c) s') :
    ∃ ts, s'.requested = s.requested ++ ts ∧ ts.Nodup ∧ ∀ t, t ∈ ts ↔
      (s.sched.tasks t).pending = false ∧ (s'.sched.tasks t).pending = true := by
  obtain ⟨a, ha, -⟩ := service_invariant h
  obtain ⟨ts, out, hreq, -, -, hnone, ha', hpending⟩ := step_service ha hstep
  have hsplit : ts ≠ [] → (a.pending ++ ts).Nodup := by
    intro hne
    rw [← hpending, hnone hne]
    exact (a.call handler sdk c).2.pending_nodup
  refine ⟨ts, hreq, ?_, fun t => ?_⟩
  · cases ts with
    | nil => exact List.nodup_nil
    | cons u us => exact (hsplit (List.cons_ne_nil u us)).of_append_right
  · rw [not_pending_iff ha, ha'.pending_flag]
    constructor
    · intro ht
      have hne := List.ne_nil_of_mem ht
      rw [hnone hne, List.nil_append] at hpending
      rw [hpending]
      exact ⟨fun hp => List.disjoint_of_nodup_append (hsplit hne) hp ht,
        List.mem_append_right _ ht⟩
    · rintro ⟨hp, ht⟩
      have hmem : t ∈ a.pending ++ ts := hpending ▸ List.mem_append_right out ht
      exact (List.mem_append.mp hmem).resolve_left hp

theorem exec_pending_step {s s' : Service ι} {t : ι} (hp : (s.sched.tasks t).pending = true)
    {sdk : Sdk} (hstep : (service handler).step s (sdk, .exec (some t)) s') : s' = s := by
  obtain ⟨reply, ts, ⟨fuel, hrun⟩, hts, hreq, hserved⟩ := hstep
  obtain ⟨err, hnone⟩ := exec_pending hp sdk fuel
  obtain ⟨rfl, hsched⟩ := Prod.mk.inj (Except.ok.inj (hnone.symm.trans hrun))
  obtain rfl : ts = [] := by simpa [Requests, hp] using hts
  obtain ⟨sched, requested, served⟩ := s
  obtain ⟨sched', requested', served'⟩ := s'
  obtain rfl : sched = sched' := hsched
  obtain rfl : requested' = requested := hreq.trans (List.append_nil _)
  obtain rfl : served' = served := hserved.trans (List.append_nil _)
  rfl

/-- The tasks are served in the order in which they went from not pending to pending.
Each time is followed by one run of the handler, or the task is still pending. A call for
a task that is already pending does nothing. When a task is put back in the queue,
and then served for the first time since, the tasks that were pending when it was put back
have been served once, and no others. -/
theorem round_robin (handler : ι → Bool) {s : Service ι} (h : (service handler).Reachable s) :
    s.served <+: s.requested ∧
    (∀ t, s.requested.count t = s.served.count t + if (s.sched.tasks t).pending then 1 else 0) ∧
    ∀ sdk c s', (service handler).step s (sdk, c) s' →
      (∃ ts, s'.requested = s.requested ++ ts ∧ ts.Nodup ∧ ∀ t, t ∈ ts ↔
        (s.sched.tasks t).pending = false ∧ (s'.sched.tasks t).pending = true) ∧
      (∀ t, (s.sched.tasks t).pending = true → c = .exec (some t) → s' = s) ∧
      ∀ ts₁ t ts₂, s'.requested = s.requested ++ ts₁ ++ t :: ts₂ →
        ∀ s'' w, ((service handler).after s').Reachable s'' →
          s''.served = s'.served ++ w ++ [t] → t ∉ w →
          ∀ u, w.count u = if (s.sched.tasks u).pending ∨ u ∈ ts₁ then 1 else 0 := by
  obtain ⟨a, ha, hhist⟩ := service_invariant h
  refine ⟨⟨a.pending, hhist.symm⟩, fun t => ?_, fun sdk c s' hstep =>
    ⟨requests_iff h hstep, fun t hp hc => exec_pending_step hp (hc ▸ hstep), ?_⟩⟩
  · rw [hhist, List.count_append, a.pending_nodup.count]
    simp only [ha.pending_flag]
  · intro ts₁ t ts₂ hreq s'' w hrun hserved hw u
    obtain ⟨b, hb, rfl, hnodup⟩ := served_since h hstep hreq hrun hserved hw
    rw [hnodup.count]
    simp only [List.mem_append, hb.pending_flag]

namespace RoundRobinLemmas

open RefineLemmas

def ran (c : Call Bool) (s : Sched Bool) : Sched Bool :=
  match c.run (sdkAt 0) 1 s with
  | .ok (_, s) => s
  | .error _ => s

/-- Both tasks have been asked for, and the scheduler is running the handler of `false`. -/
def running : Service Bool where
  sched := ran .pop (ran (.exec (some true)) (ran (.exec (some false)) start))
  requested := [false, true]
  served := [false]

def putBack : Service Bool where
  sched := ran (.exec (some false)) running.sched
  requested := [false, true, false]
  served := [false]

def rerun : Service Bool where
  sched := ran .pop (ran .pop putBack.sched)
  requested := [false, true, false]
  served := [false, true, false]

theorem reachable_running : (service fun _ => true).Reachable running := by
  refine .step (s := ⟨ran (.exec (some true)) (ran (.exec (some false)) start), [false, true], []⟩)
    (a := (sdkAt 0, .pop)) (.step (s := ⟨ran (.exec (some false)) start, [false], []⟩)
      (a := (sdkAt 0, .exec (some true))) (.step (s := ⟨start, [], []⟩)
        (a := (sdkAt 0, .exec (some false))) (.init ⟨fresh_start, rfl, rfl⟩) ?_) ?_) ?_
  · exact ⟨.status 0, [false], ⟨1, rfl⟩, rfl, rfl, rfl⟩
  · exact ⟨.status 0, [true], ⟨1, rfl⟩, rfl, rfl, rfl⟩
  · exact ⟨.task (some false), [], ⟨1, rfl⟩, rfl, rfl, rfl⟩

theorem step_putBack : (service fun _ => true).step running (sdkAt 0, .exec (some false)) putBack :=
  ⟨.status 0, [false], ⟨1, rfl⟩, rfl, rfl, rfl⟩

theorem reachable_rerun : ((service fun _ => true).after putBack).Reachable rerun := by
  refine .step (s := ⟨ran .pop putBack.sched, [false, true, false], [false, true]⟩)
    (a := (sdkAt 0, .pop)) (.step (s := putBack) (a := (sdkAt 0, .pop)) (.init rfl) ?_) ?_
  · exact ⟨.task (some true), [], ⟨1, rfl⟩, rfl, rfl, rfl⟩
  · exact ⟨.task (some false), [], ⟨1, rfl⟩, rfl, rfl, rfl⟩

end RoundRobinLemmas

open RefineLemmas RoundRobinLemmas in
/-- The handler of `false` asks for its own task, and is run again behind that of
`true`. -/
theorem round_robin_rerun :
    (service fun _ => true).Reachable running ∧
    (service fun _ => true).step running (sdkAt 0, .exec (some false)) putBack ∧
    ((service fun _ => true).after putBack).Reachable rerun ∧
    rerun.served = putBack.served ++ [true] ++ [false] ∧
    ∀ u, [true].count u = if (running.sched.tasks u).pending ∨ u ∈ [] then 1 else 0 :=
  ⟨reachable_running, step_putBack, reachable_rerun, rfl,
    (((round_robin (fun _ => true) reachable_running).2.2 (sdkAt 0) (.exec (some false)) putBack
      step_putBack).2.2 [] false [] rfl rerun [true] reachable_rerun rfl (by decide))⟩

end Picore.Task
