import Picore.Task.Interleave

/-!
# Delays

The contexts of `Interleave` with a clock that never goes back. A deadline is computed when
the locked section of `pr_task_exec_in_us` is entered, and `queue_waiting_process` reads the
clock between the start of `ptask_alarm` and its own locked section. The alarm may fire at
any time.

Results:
1. `step_waits`: what a step does to a waiting task that it does not ask for.
   `expire_in_order`: the tasks that one alarm makes pending.
2. `delays_kept`: as long as the locked sections are entered with tasks that are still not
   pending, no delayed task is early, a new delay replaces the old one, and tasks expire in
   the order of their deadlines. `alarm_makes_early`: an alarm between the test and the
   locked section puts another task into the pending list before its time.
-/

namespace Picore.Task

open Fuel Chain Transition

variable {κ ι : Type} [DecidableEq κ] [DecidableEq ι] {handler : ι → Bool}

/-- Contexts on one queue, the time of the last step, and the time at which the last
`ptask_alarm` of each context started. -/
structure Timed (κ ι : Type) where
  contexts : Contexts κ ι
  clock : Nat
  fired : κ → Nat

/-- When the last `ptask_alarm` of each context started, after a step of `k`. -/
def Timed.start (s : Timed κ ι) (time : Nat) (k : κ) : Act ι → κ → Nat
  | .fire _ => Function.update s.fired k time
  | _ => s.fired

/-- The times that a step of the context `k` gets from the SDK. -/
def TimesOk (sdk : Nat → Sdk) (s : Timed κ ι) (time : Nat) (k : κ) : Act ι → Prop
  | .enter d => ∃ n, d = (sdk time).makeTimeoutTimeUs n ∨ d = (sdk time).makeTimeoutTimeMs n
  | .expire now => ∃ τ, s.fired k ≤ τ ∧ τ ≤ time ∧ now = (sdk τ).getAbsoluteTime
  | _ => True

/-- The contexts `κ` on one queue, with a clock. `sdk` is what the SDK answers at each
time. -/
def timedContexts (κ : Type) [DecidableEq κ] (handler : ι → Bool) (sdk : Nat → Sdk) :
    Lts (Timed κ ι) (Nat × κ × Act ι) where
  init s := (interleaving κ handler).init s.contexts
  step s l s' := Step s.contexts l.2 s'.contexts ∧ s.clock ≤ l.1 ∧ s'.clock = l.1 ∧
    TimesOk sdk s l.1 l.2.1 l.2.2 ∧ s'.fired = s.start l.1 l.2.1 l.2.2

/-- What the SDK says about its clock. A deadline behind `2^63` is not computed. -/
structure Clocked (sdk : Nat → Sdk) : Prop where
  now : ∀ time, (sdk time).getAbsoluteTime = time
  us : ∀ time us, time + us < 2 ^ 63 → (sdk time).makeTimeoutTimeUs us = time + us

/-- The task `t` is in the waiting list, once, with the deadline `d`, and not in the pending
list. -/
def WaitsFor (s : Sched ι) (t : ι) (d : Nat) : Prop :=
  (s.tasks t).waiting = true ∧ (s.tasks t).pending = false ∧ (s.tasks t).exec_at = d ∧
  ∃ p w, Path s.next s.queue.first p none ∧ Path s.next s.queue.waiting w none ∧
    t ∉ p ∧ t ∈ w ∧ w.Nodup

/-- A step that asks for the task `t`: `pr_task_exec`, or the locked section of the calls with a
delay. -/
def AsksFor (t : ι) (s : Contexts κ ι) : κ × Act ι → Prop
  | (_, .exec u) => u = t
  | (k, .enter _) => s.pc k = .tested t
  | _ => False

/-- What `L` promises about delays. A task that is given a delay, whatever it waited for
before, waits for its end alone, at least until then. The tasks that an alarm makes pending
are those whose deadlines have come, and they come behind the others in the order of their
deadlines. -/
structure DelaysKept (sdk : Nat → Sdk) (L : Lts (Timed κ ι) (Nat × κ × Act ι)) : Prop where
  delayed : ∀ s, L.Reachable s → ∀ time k t us s', s.contexts.pc k = .tested t →
    L.step s (time, k, .enter ((sdk time).makeTimeoutTimeUs us)) s' → time + us < 2 ^ 63 →
    WaitsFor s'.contexts.sched t (time + us) ∧
    ∀ u, ((L.guard fun s l => ¬AsksFor t s.contexts l.2).after s').Reachable u →
      WaitsFor u.contexts.sched t (time + us) ∨ time + us ≤ u.clock
  expired : ∀ s, L.Reachable s → ∀ time k now s', L.step s (time, k, .expire now) s' →
    ∃ p ts, Path s.contexts.sched.next s.contexts.sched.queue.first p none ∧
      Path s'.contexts.sched.next s'.contexts.sched.queue.first (p ++ ts) none ∧
      (ts.map fun t => (s.contexts.sched.tasks t).exec_at).Pairwise (· ≤ ·) ∧
      ∀ t, t ∈ ts ↔ (s.contexts.sched.tasks t).waiting = true ∧
        (s.contexts.sched.tasks t).exec_at ≤ now

/-! ## 1. One step -/

omit [DecidableEq ι] in
theorem waitsFor_of_mem {s : Sched ι} {a : Schedule ι Nat} (h : Represents handler s a) {t : ι}
    {d : Nat} (hmem : (t, d) ∈ a.waiting) : WaitsFor s t d := by
  have hsleep : t ∈ a.sleepers := List.mem_map_of_mem hmem
  have hp : t ∉ a.pending := Schedule.not_pending hsleep
  have hpending : (s.tasks t).pending = false := by
    rw [← Bool.not_eq_true, h.pending_flag]
    exact hp
  exact ⟨(h.waiting_flag t).mpr hsleep, hpending, h.exec_at (t, d) hmem, a.pending, a.sleepers,
    h.first, h.waiting, hp, hsleep, a.waiting_nodup⟩

/-- A task that is asked for at once leaves the waiting entries of the others. -/
theorem mem_waiting_exec {a : Schedule ι Nat} {t u : ι} {d : Nat} (hne : t ≠ u)
    (h : (t, d) ∈ a.waiting) : (t, d) ∈ (a.exec u).waiting := by
  unfold Schedule.exec
  split
  · exact h
  · exact List.mem_filter.mpr ⟨h, by simpa using hne⟩

omit [DecidableEq κ] in
/-- A waiting entry stays as long as nothing asks for its task and it does not expire. -/
theorem step_waits {a : Schedule ι Nat} {s : Contexts κ ι} {k : κ} {act : Act ι} {t : ι} {d : Nat}
    (hasks : ¬AsksFor t s (k, act)) (h : (t, d) ∈ a.waiting) :
    (t, d) ∈ (a.act (s.pc k) act).waiting ∨ ∃ now, act = .expire now ∧ d ≤ now := by
  cases act with
  | exec u => exact .inl (mem_waiting_exec (fun heq => hasks heq.symm) h)
  | enter d' =>
    cases hpc : s.pc k with
    | tested u =>
      left
      have hne : t ≠ u := by
        rintro rfl
        exact hasks hpc
      show (t, d) ∈ (a.execIn u d').waiting
      by_cases hu : u ∈ a.pending
      · rw [Schedule.execIn, dif_pos hu]
        exact h
      · exact (Schedule.mem_waiting_execIn d' hu).mpr (.inr ⟨h, hne⟩)
    | _ => exact .inl h
  | expire now =>
    rcases Nat.lt_or_ge now d with hd | hd
    · exact .inl (List.mem_filter.mpr ⟨h, by simpa using hd⟩)
    · exact .inr ⟨now, rfl, hd⟩
  | _ => exact .inl h

omit [DecidableEq ι] in
/-- The tasks whose deadlines have come, in the order of the waiting list. -/
theorem expire_in_order {s s' : Sched ι} {a : Schedule ι Nat} (h : Represents handler s a)
    {now : Nat} (h' : Represents handler s' (a.expire now)) :
    ∃ p ts, Path s.next s.queue.first p none ∧ Path s'.next s'.queue.first (p ++ ts) none ∧
      (ts.map fun t => (s.tasks t).exec_at).Pairwise (· ≤ ·) ∧
      ∀ t, t ∈ ts ↔ (s.tasks t).waiting = true ∧ (s.tasks t).exec_at ≤ now := by
  refine ⟨a.pending, (a.waiting.filter fun e : ι × Nat => e.2 ≤ now).map Prod.fst, h.first,
    h'.first, ?_, fun t => ?_⟩
  · -- The deadlines of the tasks are those of their entries, which are in order.
    have htimes : ((a.waiting.filter fun e => e.2 ≤ now).map Prod.fst).map
        (fun t => (s.tasks t).exec_at) = (a.waiting.filter fun e => e.2 ≤ now).map Prod.snd := by
      rw [List.map_map]
      exact List.map_congr_left fun e he => h.exec_at e (List.mem_of_mem_filter he)
    rw [htimes, List.pairwise_map]
    exact a.sorted.sublist List.filter_sublist
  · rw [h.waiting_flag]
    constructor
    · intro ht
      obtain ⟨e, he, rfl⟩ := List.mem_map.mp ht
      obtain ⟨hmem, hd⟩ := List.mem_filter.mp he
      refine ⟨List.mem_map_of_mem hmem, ?_⟩
      rw [h.exec_at e hmem]
      exact of_decide_eq_true hd
    · rintro ⟨hsleep, hd⟩
      obtain ⟨e, he, rfl⟩ := List.mem_map.mp hsleep
      rw [h.exec_at e he] at hd
      exact List.mem_map_of_mem (List.mem_filter.mpr ⟨he, decide_eq_true hd⟩)

/-! ## 2. Runs -/

/-- The runs in which the locked sections of `pr_task_exec_in_us` and `pr_task_exec_in_ms`
are entered with tasks that are still not pending. -/
def stillTested (κ : Type) [DecidableEq κ] (handler : ι → Bool) (sdk : Nat → Sdk) :
    Lts (Timed κ ι) (Nat × κ × Act ι) :=
  (timedContexts κ handler sdk).guard fun s l => StillTested s.contexts l.2

theorem reachable_schedule {sdk : Nat → Sdk} {s : Timed κ ι}
    (h : (stillTested κ handler sdk).Reachable s) :
    ∃ a, Represents handler s.contexts.sched a := by
  refine h.invariant (I := fun s => ∃ a, Represents handler s.contexts.sched a) ?_ ?_
  · exact fun s hs => ⟨.empty, hs.1.represents⟩
  · intro s l s' ha hs
    obtain ⟨a, ha⟩ := ha
    exact step_represents ha hs.1.1 hs.2

/-- A task that waits for `d` and is not asked for again waits until then. -/
theorem waits_until {sdk : Nat → Sdk} (hsdk : Clocked sdk) {s u : Timed κ ι} {t : ι} {d : Nat}
    {a : Schedule ι Nat} (ha : Represents handler s.contexts.sched a) (hmem : (t, d) ∈ a.waiting)
    (hu : (((stillTested κ handler sdk).guard fun s l => ¬AsksFor t s.contexts l.2).after
      s).Reachable u) :
    WaitsFor u.contexts.sched t d ∨ d ≤ u.clock := by
  have hinv : ∃ a, Represents handler u.contexts.sched a ∧
      ((t, d) ∈ a.waiting ∨ d ≤ u.clock) := by
    refine hu.invariant (I := fun u => ∃ a, Represents handler u.contexts.sched a ∧
      ((t, d) ∈ a.waiting ∨ d ≤ u.clock)) ?_ ?_
    · rintro u rfl
      exact ⟨a, ha, .inl hmem⟩
    · rintro v ⟨time, k, act⟩ w ⟨b, hb, hwait⟩ ⟨⟨⟨hstep, hclock, hnow, htimes, -⟩, hok⟩, hasks⟩
      refine ⟨_, step_schedule hb hstep hok, ?_⟩
      rcases hwait with hwait | hd
      · refine (step_waits hasks hwait).imp_right ?_
        rintro ⟨now, rfl, hd⟩
        -- The clock that the alarm has read is not ahead of the present one.
        obtain ⟨τ, -, hτ, rfl⟩ := htimes
        rw [hsdk.now] at hd
        rw [hnow]
        exact hd.trans hτ
      · right
        rw [hnow]
        exact hd.trans hclock
  obtain ⟨b, hb, hwait | hd⟩ := hinv
  · exact .inl (waitsFor_of_mem hb hwait)
  · exact .inr hd

/-- As long as every locked section of `pr_task_exec_in_us` and `pr_task_exec_in_ms` is entered with
a task that is still not pending, delays are kept: a task waits for its deadline and for no other
one until it is asked for again, and then comes behind the pending ones. -/
theorem delays_kept (handler : ι → Bool) {sdk : Nat → Sdk} (hsdk : Clocked sdk) :
    DelaysKept sdk (stillTested κ handler sdk) where
  delayed := by
    intro s hs time k t us s' hpc hstep hus
    obtain ⟨a, ha⟩ := reachable_schedule hs
    have ha' := step_schedule ha hstep.1.1 hstep.2
    have hp : t ∉ a.pending := fun hmem => by
      have hfalse := hstep.2 t hpc
      rw [(ha.pending_flag t).mpr hmem] at hfalse
      cases hfalse
    simp only [Schedule.act, hpc, hsdk.us time us hus] at ha'
    have hmem : (t, time + us) ∈ (a.execIn t (time + us)).waiting :=
      (Schedule.mem_waiting_execIn _ hp).mpr (.inl rfl)
    exact ⟨waitsFor_of_mem ha' hmem, fun u hu => waits_until hsdk ha' hmem hu⟩
  expired := by
    intro s hs time k now s' hstep
    obtain ⟨a, ha⟩ := reachable_schedule hs
    exact expire_in_order ha (step_schedule ha hstep.1.1 hstep.2)

namespace DelayLemmas

open RefineLemmas

theorem clocked_sdkAt : Clocked sdkAt := ⟨fun _ => rfl, fun _ _ _ => rfl⟩

/-- Two contexts at rest: the main loop, `false`, and the alarm interrupt, `true`. -/
def atRest : Timed Bool Bool := ⟨⟨start, fun _ => .idle⟩, 0, fun _ => 0⟩

def next (s : Contexts Bool Bool) (k : Bool) (act : Act Bool) : Option (Contexts Bool Bool) :=
  match act, s.pc k with
  | .test t, .idle =>
    some (s.to k (if (s.sched.tasks t).pending then .idle else .tested t) s.sched)
  | .enter d, .tested t =>
    match (s.sched.tasks t).queue, execInLocked t d 3 s.sched with
    | true, .ok sched => some (s.to k .reschedule sched)
    | _, _ => none
  | .fire id, .idle => some (s.to k .expiring (Call.ack s.sched (.alarm id)))
  | .expire now, .expiring =>
    match waitingProcessLocked now 3 s.sched with
    | .ok sched => some (s.to k .reschedule sched)
    | .error _ => none
  | .readAlarm, .reschedule =>
    some (s.to k (if s.sched.queue.alarm ≥ 0 then .cancelling else .checking) s.sched)
  | .cancel, .cancelling =>
    some (s.to k .checking (Call.ack s.sched (.alarm s.sched.queue.alarm)))
  | .readWaiting, .checking =>
    some (s.to k (if s.sched.queue.waiting = none then .idle else .arming) s.sched)
  | .arm sdk, .arming =>
    match rescheduleArm sdk s.sched with
    | .ok sched => some (s.to k .idle sched)
    | .error _ => none
  | _, _ => none

theorem next_step {s s' : Contexts Bool Bool} {k : Bool} {act : Act Bool}
    (h : next s k act = some s') : Step s (k, act) s' := by
  unfold next at h
  split at h
  · next hpc =>
    cases h
    exact .test hpc
  · next hpc =>
    split at h
    · next hqueue hin =>
      cases h
      exact .enter hpc hqueue ⟨3, hin⟩
    · cases h
  · next hpc =>
    cases h
    exact .fire hpc
  · next hpc =>
    split at h
    · next hproc =>
      cases h
      exact .expire hpc ⟨3, hproc⟩
    · cases h
  · next hpc =>
    cases h
    exact .readAlarm hpc
  · next hpc =>
    cases h
    exact .cancel hpc
  · next hpc =>
    cases h
    exact .readWaiting hpc
  · next hpc =>
    split at h
    · next harm =>
      cases h
      exact .arm hpc harm
    · cases h
  · cases h

/-- The times of a step, computed. The delays are those of `sdkAt`. -/
def timely (s : Timed Bool Bool) (time : Nat) (k : Bool) : Act Bool → Bool
  | .enter d => decide (time ≤ d)
  | .expire now => decide (s.fired k ≤ now) && decide (now ≤ time)
  | _ => true

def nextTimed (s : Timed Bool Bool) (l : Nat × Bool × Act Bool) : Option (Timed Bool Bool) :=
  if s.clock ≤ l.1 ∧ timely s l.1 l.2.1 l.2.2 = true then
    (next s.contexts l.2.1 l.2.2).map fun c => ⟨c, l.1, s.start l.1 l.2.1 l.2.2⟩
  else none

theorem timesOk_of_timely {s : Timed Bool Bool} {time : Nat} {k : Bool} {act : Act Bool}
    (h : timely s time k act = true) : TimesOk sdkAt s time k act := by
  cases act with
  | enter d =>
    have hd : time ≤ d := of_decide_eq_true h
    exact ⟨d - time, .inl (Nat.add_sub_of_le hd).symm⟩
  | expire now =>
    have hnow : s.fired k ≤ now ∧ now ≤ time := by simpa [timely] using h
    exact ⟨now, hnow.1, hnow.2, rfl⟩
  | _ => trivial

theorem nextTimed_step {s s' : Timed Bool Bool} {l : Nat × Bool × Act Bool}
    (h : nextTimed s l = some s') : (timedContexts Bool (fun _ => true) sdkAt).step s l s' := by
  unfold nextTimed at h
  split at h
  · next hok =>
    obtain ⟨c, hc, rfl⟩ := Option.map_eq_some_iff.mp h
    exact ⟨next_step hc, hok.1, rfl, timesOk_of_timely hok.2, rfl⟩
  · cases h

/-- The step does not ask for the task `true`. -/
def free (s : Contexts Bool Bool) : Bool × Act Bool → Bool
  | (_, .exec u) => !u
  | (k, .enter _) =>
    match s.pc k with
    | .tested u => !u
    | _ => true
  | _ => true

theorem not_asksFor_of_free {s : Contexts Bool Bool} {l : Bool × Act Bool}
    (h : free s l = true) : ¬AsksFor true s l := by
  obtain ⟨k, act⟩ := l
  cases act with
  | exec u =>
    rintro rfl
    cases h
  | enter d =>
    intro hpc
    simp only [AsksFor] at hpc
    simp [free, hpc] at h
  | _ => exact id

/-- A step that does not ask for the task `true`, executed. -/
def nextFree (s : Timed Bool Bool) (l : Nat × Bool × Act Bool) : Option (Timed Bool Bool) :=
  if free s.contexts l.2 then nextTimed s l else none

theorem nextFree_step {t s s' : Timed Bool Bool} {l : Nat × Bool × Act Bool}
    (h : nextFree s l = some s') : (((timedContexts Bool (fun _ => true) sdkAt).guard fun s l =>
      ¬AsksFor true s.contexts l.2).after t).step s l s' := by
  unfold nextFree at h
  split at h
  · next hfree => exact ⟨nextTimed_step h, not_asksFor_of_free hfree⟩
  · cases h

/-- The main loop finds the task `true` not pending at time `0`. -/
def asked : Timed Bool Bool := ⟨⟨start, Function.update (fun _ => .idle) false (.tested true)⟩,
  0, fun _ => 0⟩

def delayed : Timed Bool Bool := (nextTimed asked (0, false, .enter 1000)).getD asked

/-- The main loop arms the alarm and gives the task `false` a delay of 10 us. At time `10`
it wants to delay this task again, and has found it not pending, when the alarm fires. -/
def race : List (Nat × Bool × Act Bool) :=
  [(0, false, .readAlarm), (0, false, .readWaiting), (0, false, .arm (sdkAt 0)),
    (0, false, .test false), (0, false, .enter 10), (0, false, .readAlarm), (0, false, .cancel),
    (0, false, .readWaiting), (0, false, .arm (sdkAt 0)),
    (10, false, .test false), (10, true, .fire 1), (10, true, .expire 10), (10, false, .enter 15)]

theorem reachable_asked :
    (timedContexts Bool (fun _ : Bool => true) sdkAt).Reachable asked :=
  .step (s := atRest) (a := (0, false, .test true)) (.init ⟨fresh_start, fun _ => rfl⟩)
    (nextTimed_step rfl)

/-- The task `true` hangs behind the task `false` in the pending list. -/
theorem race_early : ∃ u, exec nextFree delayed race = some u ∧ u.clock = 10 ∧
    u.contexts.sched.queue.first = some false ∧ u.contexts.sched.next false = some true :=
  ⟨(exec nextFree delayed race).getD delayed, rfl, rfl, rfl, rfl⟩

end DelayLemmas

open DelayLemmas RefineLemmas in
theorem delays_kept_sdkAt :
    Clocked sdkAt ∧ DelaysKept sdkAt (stillTested Bool (fun _ : Bool => true) sdkAt) :=
  ⟨clocked_sdkAt, delays_kept (fun _ => true) clocked_sdkAt⟩

open DelayLemmas RefineLemmas in
/-- The task `true` is given a delay of 1000 us at time `0`, and nothing else asks for it.
At time `10` it is in the pending list. -/
theorem alarm_makes_early :
    (∃ s s' u : Timed Bool Bool, (timedContexts Bool (fun _ => true) sdkAt).Reachable s ∧
      s.contexts.pc false = .tested true ∧
      (timedContexts Bool (fun _ => true) sdkAt).step s (0, false, .enter 1000) s' ∧
      (((timedContexts Bool (fun _ => true) sdkAt).guard fun s l =>
        ¬AsksFor true s.contexts l.2).after s').Reachable u ∧
      u.clock = 10 ∧ u.contexts.sched.queue.first = some false ∧
      u.contexts.sched.next false = some true) ∧
    ¬DelaysKept sdkAt (timedContexts Bool (fun _ : Bool => true) sdkAt) := by
  obtain ⟨u, hexec, hclock, hfirst, hnext⟩ := race_early
  have hstep : (timedContexts Bool (fun _ => true) sdkAt).step asked (0, false, .enter 1000)
      delayed := nextTimed_step rfl
  have hu : (((timedContexts Bool (fun _ => true) sdkAt).guard fun s l =>
      ¬AsksFor true s.contexts l.2).after delayed).Reachable u :=
    Lts.Reachable.exec (fun _ l _ h => ⟨l, nextFree_step h⟩) (.init rfl) hexec
  refine ⟨⟨asked, delayed, u, reachable_asked, rfl, hstep, hu, hclock, hfirst, hnext⟩,
    fun hkept => ?_⟩
  rcases ((hkept.delayed _ reachable_asked 0 false true 1000 delayed rfl hstep
    (by decide)).2 u hu) with ⟨-, -, -, p, w, hp, -, hmem, -⟩ | hlate
  · -- The pending list goes from `false` to `true`.
    rw [hfirst] at hp
    cases p with
    | nil => cases hp
    | cons x p =>
      obtain ⟨hx, hp⟩ := hp
      cases hx
      rw [hnext] at hp
      cases p with
      | nil => cases hp
      | cons y p =>
        obtain ⟨hy, -⟩ := hp
        cases hy
        exact hmem (by simp)
  · rw [hclock] at hlate
    exact absurd hlate (by decide)

end Picore.Task
