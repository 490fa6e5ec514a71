import Picore.Task.Alarm
import Picore.Task.Frame

/-!
# Several queues on one alarm pool

All queues take their alarms from the default pool of the Pico SDK. `pr_task_queue_init` does
not write the field `alarm`, so until the first alarm of a queue it holds what was in the
memory of the queue.

Results:
1. `Reaches`: the state in which a call gets to `queue_reschedule`. `run_reaches`: what the
   call does to the alarms.
2. `Queues`, `Step`, `queues`: calls and alarms on any number of queues, one at a time.
   `owned_step`: a queue keeps in `alarm` an alarm of its own.
3. `cancels_own_iff`: queues cancel only their own alarms, whatever the calls, iff the field
   `alarm` of each is negative before the initialisation. `stale_alarm_cancels`: a queue whose
   field is not.
-/

namespace Picore.Task

open Fuel Transition

variable {ρ ι : Type} [DecidableEq ι]

/-! ## 1. Calls that get to `queue_reschedule` -/

/-- A call gets to `queue_reschedule`, and `s1` is the state in which it does. The calls that return
before that, or that find the queue as it was, are not related. -/
inductive Reaches (sdk : Sdk) (s : Sched ι) : Call ι → Sched ι → Prop
  | exec {task : ι} {s1 : Sched ι} : (s.tasks task).handler = true →
      (s.tasks task).queue = true → Returns (fun fuel => execLocked task fuel s) (true, s1) →
      Reaches sdk s (.exec (some task)) s1
  | execInUs {task : ι} {us : Nat} {s1 : Sched ι} : (s.tasks task).pending = false →
      (s.tasks task).queue = true →
      Returns (fun fuel => execInLocked task (sdk.makeTimeoutTimeUs us) fuel s) s1 →
      Reaches sdk s (.execInUs task us) s1
  | execInMs {task : ι} {ms : Nat} {s1 : Sched ι} : (s.tasks task).pending = false →
      (s.tasks task).queue = true →
      Returns (fun fuel => execInLocked task (sdk.makeTimeoutTimeMs ms) fuel s) s1 →
      Reaches sdk s (.execInMs task ms) s1
  | alarm {id : Int} {s1 : Sched ι} :
      Returns (fun fuel => waitingProcessLocked sdk.getAbsoluteTime fuel (Call.ack s (.alarm id)))
        s1 →
      Reaches sdk s (.alarm id) s1

/-- Up to `queue_reschedule`, only an alarm that fires is disarmed and forgotten. -/
theorem Reaches.sameAlarm {sdk : Sdk} {s s1 : Sched ι} {c : Call ι} (h : Reaches sdk s c s1) :
    SameAlarm (c.ack s) s1 := by
  cases h with
  | exec _ _ hret =>
    obtain ⟨fuel, hret⟩ := hret
    exact (kept_execLocked _ fuel _ _ hret).alarm
  | execInUs _ _ hret | execInMs _ _ hret =>
    obtain ⟨fuel, hret⟩ := hret
    exact (kept_execInLocked _ _ fuel _ _ hret).alarm
  | alarm hret =>
    obtain ⟨fuel, hret⟩ := hret
    exact (kept_waitingProcess _ fuel _ _ hret).alarm

theorem Reaches.unique {sdk : Sdk} {s s1 s2 : Sched ι} {c : Call ι} (h : Reaches sdk s c s1)
    (h' : Reaches sdk s c s2) : s1 = s2 := by
  cases h with
  | exec _ _ hret =>
    cases h' with
    | exec _ _ hret' =>
      exact (Prod.mk.inj ((execLocked_fueled _ s).returns_unique hret hret')).2
  | execInUs _ _ hret =>
    cases h' with
    | execInUs _ _ hret' => exact (execInLocked_fueled _ _ s).returns_unique hret hret'
  | execInMs _ _ hret =>
    cases h' with
    | execInMs _ _ hret' => exact (execInLocked_fueled _ _ s).returns_unique hret hret'
  | alarm hret =>
    cases h' with
    | alarm hret' =>
      exact Fueled.returns_unique (fun fuel => waitingProcessLocked_fueled _ fuel _) hret hret'

/-- A delayed request sets the alarm again unless its task is pending. -/
theorem execIn_reaches {sdk : Sdk} {s s' : Sched ι} {task : ι} {deadline fuel : Nat}
    (h : execIn sdk task deadline fuel s = .ok s') :
    s' = s ∧ (s.tasks task).pending = true ∨ (s.tasks task).pending = false ∧
      (s.tasks task).queue = true ∧ ∃ s1, execInLocked task deadline fuel s = .ok s1 ∧
        queueReschedule sdk s1 = .ok s' := by
  rw [execIn] at h
  split at h
  · next hpending => exact .inl ⟨(Except.ok.inj h).symm, hpending⟩
  · next hpending =>
    split at h
    · cases h
    · next hqueue =>
      obtain ⟨s1, hlocked, hres⟩ := bind_eq_ok.mp h
      refine .inr ⟨Bool.eq_false_of_not_eq_true hpending, ?_, s1, hlocked, hres⟩
      simpa using hqueue

/-- A request sets the alarm again when its task was waiting. -/
theorem exec_reaches {sdk : Sdk} {s s' : Sched ι} {task : ι} {err : Int} {fuel : Nat}
    (h : prTaskExec sdk (some task) fuel s = .ok (err, s')) :
    SameAlarm s s' ∧ (∀ s1, ¬ Reaches sdk s (.exec (some task)) s1) ∨
      ∃ s1, Reaches sdk s (.exec (some task)) s1 ∧ queueReschedule sdk s1 = .ok s' := by
  rw [prTaskExec] at h
  split at h
  · next hhandler =>
    obtain ⟨-, rfl⟩ := Prod.mk.inj (Except.ok.inj h)
    refine .inl ⟨⟨rfl, rfl⟩, fun s1 hreach => ?_⟩
    cases hreach with
    | exec hset => simp [hset] at hhandler
  · next hhandler =>
    split at h
    · next hqueue =>
      obtain ⟨-, rfl⟩ := Prod.mk.inj (Except.ok.inj h)
      refine .inl ⟨⟨rfl, rfl⟩, fun s1 hreach => ?_⟩
      cases hreach with
      | exec _ hset => simp [hset] at hqueue
    · next hqueue =>
      obtain ⟨⟨reschedule, s1⟩, hlocked, h⟩ := bind_eq_ok.mp h
      obtain ⟨s2, hres, hret⟩ := bind_eq_ok.mp h
      obtain ⟨-, rfl⟩ := Prod.mk.inj (Except.ok.inj hret)
      cases reschedule with
      | true =>
        exact .inr ⟨s1, .exec (by simpa using hhandler) (by simpa using hqueue) ⟨fuel, hlocked⟩,
          hres⟩
      | false =>
        obtain rfl := Except.ok.inj hres
        refine .inl ⟨(kept_execLocked task fuel s _ hlocked).alarm, fun s2 hreach => ?_⟩
        cases hreach with
        | exec _ _ hret =>
          cases (execLocked_fueled task s).returns_unique ⟨fuel, hlocked⟩ hret

/-- A call that returns leaves the alarms as they are, or gets to `queue_reschedule` and ends
with it. -/
theorem run_reaches {sdk : Sdk} {c : Call ι} {s s' : Sched ι} {reply : Reply ι}
    (h : Returns (fun fuel => c.run sdk fuel s) (reply, s')) :
    SameAlarm s s' ∧ (∀ s1, ¬ Reaches sdk s c s1) ∨
      ∃ s1, Reaches sdk s c s1 ∧ queueReschedule sdk s1 = .ok s' := by
  obtain ⟨fuel, h⟩ := h
  cases c with
  | exec task =>
    obtain ⟨⟨err, s2⟩, hexec, hret⟩ := bind_eq_ok.mp h
    obtain ⟨-, rfl⟩ := Prod.mk.inj (Except.ok.inj hret)
    cases task with
    | none =>
      obtain ⟨-, rfl⟩ := Prod.mk.inj (Except.ok.inj hexec)
      exact .inl ⟨⟨rfl, rfl⟩, nofun⟩
    | some task => exact exec_reaches hexec
  | execInUs task us =>
    obtain ⟨s2, hexec, hret⟩ := bind_eq_ok.mp h
    obtain ⟨-, rfl⟩ := Prod.mk.inj (Except.ok.inj hret)
    rcases execIn_reaches hexec with ⟨rfl, hpending⟩ | ⟨hpending, hqueue, s1, hlocked, hres⟩
    · refine .inl ⟨⟨rfl, rfl⟩, fun s1 hreach => ?_⟩
      cases hreach with
      | execInUs hnot => rw [hpending] at hnot; cases hnot
    · exact .inr ⟨s1, .execInUs hpending hqueue ⟨fuel, hlocked⟩, hres⟩
  | execInMs task ms =>
    obtain ⟨s2, hexec, hret⟩ := bind_eq_ok.mp h
    obtain ⟨-, rfl⟩ := Prod.mk.inj (Except.ok.inj hret)
    rcases execIn_reaches hexec with ⟨rfl, hpending⟩ | ⟨hpending, hqueue, s1, hlocked, hres⟩
    · refine .inl ⟨⟨rfl, rfl⟩, fun s1 hreach => ?_⟩
      cases hreach with
      | execInMs hnot => rw [hpending] at hnot; cases hnot
    · exact .inr ⟨s1, .execInMs hpending hqueue ⟨fuel, hlocked⟩, hres⟩
  | alarm id =>
    obtain ⟨s2, hexec, hret⟩ := bind_eq_ok.mp h
    obtain ⟨-, rfl⟩ := Prod.mk.inj (Except.ok.inj hret)
    obtain ⟨s1, hlocked, hres⟩ := bind_eq_ok.mp hexec
    exact .inr ⟨s1, .alarm ⟨fuel, hlocked⟩, hres⟩
  | pop =>
    obtain ⟨-, rfl⟩ := Prod.mk.inj (Except.ok.inj h)
    exact .inl ⟨(kept_pop s).alarm, nofun⟩

/-! ## 2. Several queues -/

/-- `add_alarm_at` returns the id of a new alarm or, without a free slot, a negative number. -/
def Sdk.NewIds (sdk : Sdk) : Prop :=
  ∀ as time, sdk.alarmId as time ≠ 0 ∧ sdk.alarmId as time ∉ as.map Prod.fst

/-- The queues `ρ` with their tasks, and the alarms that are armed. `ready` tells which queues
have been initialised, and `owner` for which queue an id was returned last. -/
structure Queues (ρ ι : Type) where
  queue : ρ → PrTaskQueue ι
  tasks : ρ → ι → PrTask ι
  alarms : List (Int × Nat)
  ready : ρ → Bool
  owner : Int → Option ρ

def Queues.armed (s : Queues ρ ι) : List Int := s.alarms.map Prod.fst

def Queues.view (s : Queues ρ ι) (q : ρ) : Sched ι where
  queue := s.queue q
  tasks := s.tasks q
  alarms := s.alarms

variable [DecidableEq ρ]

/-- The state after the calls on `q` have left `sched`. -/
def Queues.put (s : Queues ρ ι) (q : ρ) (sched : Sched ι) : Queues ρ ι :=
  { s with
    queue := Function.update s.queue q sched.queue
    tasks := Function.update s.tasks q sched.tasks
    alarms := sched.alarms }

/-- The state after `pr_task_queue_init` of `q` and `pr_task_init` of its tasks. -/
def Queues.start (s : Queues ρ ι) (handler : ρ → ι → Bool) (q : ρ) : Queues ρ ι :=
  { s with
    queue := Function.update s.queue q (prTaskQueueInit (s.queue q))
    tasks := Function.update s.tasks q fun t => prTaskInit true (handler q t)
    ready := Function.update s.ready q true }

/-- An alarm fires for the queue that it was added for. -/
def Queues.Enabled (s : Queues ρ ι) (q : ρ) : Call ι → Prop
  | .alarm id => id ∈ s.armed ∧ s.owner id = some q
  | _ => True

/-- The labels of the steps: a queue is initialised, or a call is made on one that has been. -/
inductive QueueAct (ρ ι : Type)
  | init (q : ρ)
  | call (q : ρ) (sdk : Sdk) (c : Call ι)

/-- One call on one queue. A queue is initialised once, and before any other call on it. -/
inductive QueueStep (handler : ρ → ι → Bool) : Queues ρ ι → QueueAct ρ ι → Queues ρ ι → Prop
  | init {s : Queues ρ ι} {q : ρ} : s.ready q = false →
      QueueStep handler s (.init q) (s.start handler q)
  /-- A call that does not get to `queue_reschedule`. -/
  | call {s : Queues ρ ι} {q : ρ} {sdk : Sdk} {c : Call ι} {reply : Reply ι} {sched : Sched ι} :
      s.ready q = true → s.Enabled q c → (∀ s1, ¬ Reaches sdk (s.view q) c s1) →
      Returns (fun fuel => c.run sdk fuel (s.view q)) (reply, sched) →
      QueueStep handler s (.call q sdk c) (s.put q sched)
  /-- A call that does. The id that `queue_reschedule` writes is one returned for `q`. -/
  | reschedule {s : Queues ρ ι} {q : ρ} {sdk : Sdk} {c : Call ι} {reply : Reply ι}
      {s1 sched : Sched ι} :
      s.ready q = true → s.Enabled q c → sdk.NewIds → Reaches sdk (s.view q) c s1 →
      Returns (fun fuel => c.run sdk fuel (s.view q)) (reply, sched) →
      QueueStep handler s (.call q sdk c)
        { s.put q sched with owner := Function.update s.owner sched.queue.alarm (some q) }

/-- Calls and alarms on the queues `ρ`, one at a time. `memory` is the content of the queues
before they are initialised. -/
def queues (handler : ρ → ι → Bool) (memory : ρ → PrTaskQueue ι) :
    Lts (Queues ρ ι) (QueueAct ρ ι) where
  init s := s.queue = memory ∧ s.alarms = [] ∧ ∀ q, s.ready q = false
  step := QueueStep handler

/-- Every id that `queue_reschedule` passes to `cancel_alarm` for a queue is that of an alarm
which was added for this queue and is still armed, and no call disarms an alarm of another
queue. -/
structure CancelsOwn (handler : ρ → ι → Bool) (s : Queues ρ ι) : Prop where
  own : ∀ q sdk c s1, s.ready q = true → s.Enabled q c → Reaches sdk (s.view q) c s1 →
    s1.queue.alarm ≥ 0 → s1.queue.alarm ∈ s1.armed ∧ s.owner s1.queue.alarm = some q
  apart : ∀ q sdk c s', QueueStep handler s (.call q sdk c) s' →
    ∀ id ∈ s.armed, s.owner id ≠ some q → id ∈ s'.armed

/-- The field `alarm` of every queue is negative or the id of an armed alarm of the queue. -/
def Owned (s : Queues ρ ι) : Prop :=
  ∀ q, (s.queue q).alarm ≥ 0 →
    (s.queue q).alarm ∈ s.armed ∧ s.owner (s.queue q).alarm = some q

omit [DecidableEq ι] in
/-- Setting the alarm of a queue again cancels at most that alarm. A new one has another id than
those that stay armed. -/
theorem queueReschedule_pool {sdk : Sdk} (hsdk : sdk.NewIds) {s s' : Sched ι}
    (h : queueReschedule sdk s = .ok s') :
    (∀ id ∈ s.armed, (0 ≤ s.queue.alarm → id ≠ s.queue.alarm) →
      id ∈ s'.armed ∧ (0 ≤ id → id ≠ s'.queue.alarm)) ∧
    (0 ≤ s'.queue.alarm → s'.queue.alarm ∈ s'.armed) := by
  have hneg : (rescheduleCancel s).queue.alarm < 0 := by
    rw [rescheduleCancel]
    split
    · show (-1 : Int) < 0
      decide
    · next hneg => exact Int.not_le.mp hneg
  have hkept : ∀ id ∈ s.armed, (0 ≤ s.queue.alarm → id ≠ s.queue.alarm) →
      id ∈ (rescheduleCancel s).armed := by
    intro id hid hne
    rw [rescheduleCancel]
    split
    · next hpos => exact mem_armed_cancel.mpr ⟨hid, hne hpos⟩
    · exact hid
  rw [queueReschedule] at h
  split at h
  · obtain rfl := Except.ok.inj h
    refine ⟨fun id hid hne => ⟨hkept id hid hne, ?_⟩, fun hpos => absurd hneg hpos.not_gt⟩
    exact fun hpos heq => absurd hneg (heq ▸ hpos).not_gt
  · obtain ⟨-, -, -, hold, harmed, time, hid⟩ := rescheduleArm_armed h
    obtain ⟨hzero, hnew⟩ := hsdk (rescheduleCancel s).alarms time
    rw [← hid] at hzero hnew
    refine ⟨fun id hid hne => ⟨hold id (hkept id hid hne), fun _ heq => ?_⟩, fun hpos => ?_⟩
    · exact hnew (heq ▸ hkept id hid hne)
    · exact harmed (lt_of_le_of_ne hpos hzero.symm)

section Owned

variable {s : Queues ρ ι} {q : ρ} {sdk : Sdk} {c : Call ι} {s1 : Sched ι}

omit [DecidableEq ρ] in
/-- A call gets to `queue_reschedule` with an alarm of its own queue, or with none. -/
theorem Owned.reaches_own (h : Owned s) (hreach : Reaches sdk (s.view q) c s1)
    (hpos : s1.queue.alarm ≥ 0) : s1.queue.alarm ∈ s1.armed ∧ s.owner s1.queue.alarm = some q := by
  have hsame := hreach.sameAlarm
  rw [hsame.armed, hsame.1] at *
  cases hreach with
  | alarm _ =>
    have hpos : (-1 : Int) ≥ 0 := hpos
    exact absurd hpos (by decide)
  | exec _ _ _ | execInUs _ _ _ | execInMs _ _ _ => exact h q hpos

omit [DecidableEq ρ] in
/-- Up to there, the alarms of the other queues stay armed. -/
theorem reaches_apart (hen : s.Enabled q c) (hreach : Reaches sdk (s.view q) c s1) {id : Int}
    (hid : id ∈ s.armed) (hne : s.owner id ≠ some q) : id ∈ s1.armed := by
  rw [hreach.sameAlarm.armed]
  cases hreach with
  | @alarm fired =>
    refine mem_armed_cancel.mpr ⟨hid, fun heq => hne ?_⟩
    rw [heq]
    exact hen.2
  | exec _ _ _ | execInUs _ _ _ | execInMs _ _ _ => exact hid

omit [DecidableEq ρ] in
/-- A call leaves the alarms of the other queues armed, and its new id is none of theirs. -/
theorem Owned.call_apart (h : Owned s) (hen : s.Enabled q c) (hsdk : sdk.NewIds)
    (hreach : Reaches sdk (s.view q) c s1) {sched : Sched ι}
    (hres : queueReschedule sdk s1 = .ok sched) {id : Int} (hid : id ∈ s.armed)
    (hne : s.owner id ≠ some q) : id ∈ sched.armed ∧ (0 ≤ id → id ≠ sched.queue.alarm) := by
  refine (queueReschedule_pool hsdk hres).1 id (reaches_apart hen hreach hid hne) fun hpos heq => ?_
  rw [heq] at hne
  exact hne (h.reaches_own hreach hpos).2

end Owned

omit [DecidableEq ρ] in
theorem reschedules {s : Queues ρ ι} {q : ρ} {sdk : Sdk} {c : Call ι} {reply : Reply ι}
    {s1 sched : Sched ι} (hreach : Reaches sdk (s.view q) c s1)
    (hret : Returns (fun fuel => c.run sdk fuel (s.view q)) (reply, sched)) :
    queueReschedule sdk s1 = .ok sched := by
  rcases run_reaches hret with ⟨-, hnot⟩ | ⟨s2, hreach', hres⟩
  · exact absurd hreach (hnot s1)
  · rwa [hreach.unique hreach']

omit [DecidableEq ρ] in
theorem alarm_kept {s : Queues ρ ι} {q : ρ} {sdk : Sdk} {c : Call ι} {reply : Reply ι}
    {sched : Sched ι} (hnot : ∀ s1, ¬ Reaches sdk (s.view q) c s1)
    (hret : Returns (fun fuel => c.run sdk fuel (s.view q)) (reply, sched)) :
    SameAlarm (s.view q) sched := by
  rcases run_reaches hret with ⟨hsame, -⟩ | ⟨s1, hreach, -⟩
  · exact hsame
  · exact absurd hreach (hnot s1)

/-- A queue keeps in `alarm` an alarm of its own. -/
theorem owned_step {handler : ρ → ι → Bool} {s s' : Queues ρ ι} {l : QueueAct ρ ι} (h : Owned s)
    (hs : QueueStep handler s l s') : Owned s' := by
  intro p hpos
  cases hs with
  | @init q hready =>
    have hsame : (Function.update s.queue q (prTaskQueueInit (s.queue q)) p).alarm =
        (s.queue p).alarm := by
      rcases eq_or_ne p q with rfl | hne
      · rw [Function.update_self]
        rfl
      · rw [Function.update_of_ne hne]
    have hpos : (Function.update s.queue q (prTaskQueueInit (s.queue q)) p).alarm ≥ 0 := hpos
    show (Function.update s.queue q (prTaskQueueInit (s.queue q)) p).alarm ∈ s.armed ∧
      s.owner (Function.update s.queue q (prTaskQueueInit (s.queue q)) p).alarm = some p
    rw [hsame] at hpos ⊢
    exact h p hpos
  | @call q sdk c reply sched _ _ hnot hret =>
    have hkept := alarm_kept hnot hret
    have hsame : (Function.update s.queue q sched.queue p).alarm = (s.queue p).alarm := by
      rcases eq_or_ne p q with rfl | hne
      · rw [Function.update_self]
        exact hkept.1
      · rw [Function.update_of_ne hne]
    simp only [Queues.put, Queues.armed, hsame] at hpos ⊢
    rw [hkept.2]
    exact h p hpos
  | @reschedule q sdk c reply s1 sched _ hen hsdk hreach hret =>
    have hres := reschedules hreach hret
    rcases eq_or_ne p q with rfl | hne
    · simp only [Queues.put, Queues.armed, Function.update_self] at hpos ⊢
      exact ⟨(queueReschedule_pool hsdk hres).2 hpos, trivial⟩
    · simp only [Queues.put, Queues.armed, Function.update_of_ne hne] at hpos ⊢
      obtain ⟨hmem, howner⟩ := h p hpos
      have hother : s.owner (s.queue p).alarm ≠ some q := by
        rw [howner]
        exact fun heq => hne (Option.some.inj heq)
      obtain ⟨harmed, hid⟩ := h.call_apart hen hsdk hreach hres hmem hother
      rw [Function.update_of_ne (hid hpos)]
      exact ⟨harmed, howner⟩

/-! ## 3. Runs -/

theorem Owned.cancels {handler : ρ → ι → Bool} {s : Queues ρ ι} (h : Owned s) :
    CancelsOwn handler s where
  own q sdk c s1 _ _ hreach hpos := h.reaches_own hreach hpos
  apart q sdk c s' hs id hid hne := by
    cases hs with
    | call _ _ hnot hret =>
      show id ∈ Sched.armed _
      rw [(alarm_kept hnot hret).armed]
      exact hid
    | reschedule _ hen hsdk hreach hret =>
      exact (h.call_apart hen hsdk hreach (reschedules hreach hret) hid hne).1

/-- The first delayed request on a queue gets to `queue_reschedule` with what was in its
memory. -/
theorem start_reaches (s : Queues ρ ι) (handler : ρ → ι → Bool) (q : ρ) (sdk : Sdk) (t : ι) :
    ∃ s1, Reaches sdk ((s.start handler q).view q) (.execInUs t 0) s1 ∧
      s1.queue.alarm = (s.queue q).alarm ∧ s1.alarms = s.alarms := by
  have hview : (s.start handler q).view q =
      ⟨prTaskQueueInit (s.queue q), fun t => prTaskInit true (handler q t), s.alarms⟩ := by
    simp only [Queues.start, Queues.view, Function.update_self]
  have hfresh : Fresh (handler q) ((s.start handler q).view q) := by
    rw [hview]
    exact ⟨⟨_, rfl⟩, fun _ => rfl⟩
  have hrep := hfresh.represents
  obtain ⟨s1, hlocked, -, halarm⟩ := execInLocked_represents hrep (t := t) List.not_mem_nil
    (sdk.makeTimeoutTimeUs 0) (Nat.lt_succ_self _)
  rw [hview] at halarm
  refine ⟨s1, .execInUs ?_ (hrep.bound t) ⟨_, hlocked⟩, halarm⟩
  rw [hview]
  rfl

def uninitialised (memory : ρ → PrTaskQueue ι) : Queues ρ ι where
  queue := memory
  tasks _ _ := prTaskInit false false
  alarms := []
  ready _ := false
  owner _ := none

theorem reachable_uninitialised (handler : ρ → ι → Bool) (memory : ρ → PrTaskQueue ι) :
    (queues handler memory).Reachable (uninitialised memory) :=
  .init ⟨rfl, rfl, fun _ => rfl⟩

/-- Queues of which each has a task `t` cancel only their own alarms, in every sequence of calls and
alarms, iff the field `alarm` of each is negative before `pr_task_queue_init`, which does not set
it. -/
theorem cancels_own_iff (handler : ρ → ι → Bool) (memory : ρ → PrTaskQueue ι) (t : ι) :
    (∀ s, (queues handler memory).Reachable s → CancelsOwn handler s) ↔
      ∀ q, (memory q).alarm < 0 := by
  constructor
  · intro h q
    by_contra hpos
    have hstep : QueueStep handler (uninitialised memory) (.init q) _ := .init rfl
    have hready := (reachable_uninitialised handler memory).step hstep
    obtain ⟨s1, hreach, halarm, hnone⟩ := start_reaches _ handler q (RefineLemmas.sdkAt 0) t
    have hown := (h _ hready).own q _ (.execInUs t 0) s1 (Function.update_self ..) trivial hreach
    rw [halarm, Sched.armed, hnone] at hown
    exact List.not_mem_nil (hown (Int.not_lt.mp hpos)).1
  · intro hneg s hreach
    refine Owned.cancels ?_
    refine hreach.invariant (I := Owned) ?_ fun _ _ _ h hs => owned_step h hs
    rintro s ⟨hqueue, -, -⟩ q hpos
    rw [hqueue] at hpos
    exact absurd (hneg q) hpos.not_gt

namespace QueuesLemmas

open RefineLemmas AlarmLemmas

/-- The memory of the queue `true` holds the first id that the pool returns. -/
def memory (q : Bool) : PrTaskQueue Bool := ⟨none, none, none, if q then 1 else -1⟩

theorem newIds_sdkAt (now : Nat) : (sdkAt now).NewIds := fun as time =>
  ⟨(freshIds_sdkAt now as time).1.ne', (freshIds_sdkAt now as time).2⟩

def delayedBy (us : Nat) (s : Sched Bool) : Sched Bool :=
  match Call.run (sdkAt 0) 3 s (.execInUs false us) with
  | .ok (_, s) => s
  | .error _ => s

def delayedOn (q : Bool) (us : Nat) (s : Queues Bool Bool) : Queues Bool Bool :=
  { s.put q (delayedBy us (s.view q)) with
    owner := Function.update s.owner (delayedBy us (s.view q)).queue.alarm (some q) }

/-- A task of the queue `false` waits for its alarm, and the queue `true` is initialised. -/
def twoQueues : Queues Bool Bool :=
  (delayedOn false 10 ((uninitialised memory).start (fun _ _ => true) false)).start
    (fun _ _ => true) true

end QueuesLemmas

open QueuesLemmas RefineLemmas in
/-- The first delayed request on the queue `true` cancels the alarm of the queue `false`, whose
task still waits. -/
theorem stale_alarm_cancels : ∃ s s' : Queues Bool Bool,
    (queues (fun _ _ => true) memory).Reachable s ∧ s.alarms = [(1, 10)] ∧
    s.owner 1 = some false ∧ ¬ CancelsOwn (fun _ _ => true) s ∧
    QueueStep (fun _ _ => true) s (.call true (sdkAt 0) (.execInUs false 20)) s' ∧
    s'.alarms = [(1, 20)] ∧ s'.owner 1 = some true ∧
    (s'.queue false).waiting = some false := by
  have hdelay : QueueStep (fun _ _ => true) ((uninitialised memory).start (fun _ _ => true) false)
      (.call false (sdkAt 0) (.execInUs false 10)) (delayedOn false 10 _) :=
    .reschedule rfl trivial (newIds_sdkAt 0) (.execInUs rfl rfl ⟨3, rfl⟩) ⟨3, rfl⟩
  have hcancel : QueueStep (fun _ _ => true) twoQueues
      (.call true (sdkAt 0) (.execInUs false 20)) (delayedOn true 20 twoQueues) :=
    .reschedule rfl trivial (newIds_sdkAt 0) (.execInUs rfl rfl ⟨3, rfl⟩) ⟨3, rfl⟩
  have hreach : (queues (fun _ _ => true) memory).Reachable twoQueues :=
    .step (.step (.step (reachable_uninitialised _ _) (.init rfl)) hdelay) (.init rfl)
  refine ⟨twoQueues, _, hreach, rfl, rfl, fun hown => ?_, hcancel, rfl, rfl, rfl⟩
  obtain ⟨s1, hs1, halarm, -⟩ := start_reaches (delayedOn false 10 _) (fun _ _ => true) true
    (sdkAt 0) false
  have howner := (hown.own true (sdkAt 0) (.execInUs false 0) s1 rfl trivial hs1 ?_).2
  · rw [halarm] at howner
    cases howner
  · rw [halarm]
    decide

end Picore.Task
