import Picore.Fifo.Basic
import Picore.Task.Refine
import Picore.Lib.Transition

/-!
# Wake-ups of a task on a FIFO

A call of `done` hands bytes to the other side of the FIFO, releases the lock, and then
passes the task of that side to `pr_task_exec`, which does nothing if the task is
pending. The handler of the task takes bytes until there are none. It can do so because
the scheduler clears the pending flag before it runs the handler: what comes in behind
the last look of the handler makes the task pending again.

The steps are the locked sections of the FIFO, the calls of `pr_task_exec` behind them,
and those of the scheduler, in any number of contexts. The one in which the scheduler
runs the handler is `none`.

Results:
1. `prepare_spec`, `done_spec`: what the locked sections do to either side.
2. `step_inv`: every step keeps the invariant.
3. `no_lost_wakeup`: nothing waits for a task that is not going to run.
-/

namespace Picore.Fifo.Wakeup

open Fuel Transition Picore.Task

variable {κ ι τ : Type}

/-! ## 1. The sides of a FIFO -/

/-- The sides of a FIFO: its consumers read, its producers write. -/
inductive Side
  | read
  | write

def Side.other : Side → Side
  | .read => .write
  | .write => .read

/-- What `prepare` takes from on this side, `used` or `free`. -/
def Side.avail (f : PrFifo τ) : Side → Nat
  | .read => f.used
  | .write => f.free

def Side.task (f : PrFifo τ) : Side → Option τ
  | .read => f.consumer
  | .write => f.producer

/-- `pr_fifo_read_prepare` or `pr_fifo_write_prepare`. -/
def Side.prepare (f : PrFifo τ) (n : Nat) : Side → Nat × Nat × PrFifo τ
  | .read => prFifoReadPrepare f n
  | .write => prFifoWritePrepare f n

/-- The locked section of `pr_fifo_read_done` or `pr_fifo_write_done`. -/
def Side.done (f : PrFifo τ) (n : Nat) : Side → PrFifo τ × Option τ
  | .read => prFifoReadDone f n
  | .write => prFifoWriteDone f n

/-- The pointers are inside the buffer, unless it has no bytes. -/
structure InRing (f : PrFifo τ) : Prop where
  rptr : f.rptr < f.size ∨ f.size = 0
  wptr : f.wptr < f.size ∨ f.size = 0
  empty : f.size = 0 → f.used = 0 ∧ f.free = 0

/-- What a call of `prepare` on the side `e` that grants `k` bytes leaves of the FIFO. -/
structure Takes (e : Side) (f f' : PrFifo τ) (k : Nat) : Prop where
  le : k ≤ e.avail f
  avail : e.avail f' = e.avail f - k
  other : e.other.avail f' = e.other.avail f
  task : ∀ d : Side, d.task f' = d.task f
  size : f'.size = f.size
  room : k ≤ f.size

theorem ptr_lt {p k size : Nat} (hp : p < size ∨ size = 0) (hk : p + k ≤ size ∨ k = 0) :
    (if p + k = size then 0 else p + k) < size ∨ size = 0 := by
  split
  · omega
  · omega

/-- A call of `prepare` for some bytes grants none only if there are none. -/
theorem prepare_spec (e : Side) {f : PrFifo τ} (hf : InRing f) (n : Nat) :
    Takes e f (e.prepare f n).2.2 (e.prepare f n).1 ∧ InRing (e.prepare f n).2.2 ∧
      (0 < n → (e.prepare f n).1 = 0 → e.avail f = 0) := by
  obtain ⟨hr, hw, h0⟩ := hf
  cases e with
  | read =>
    have hle := readGrant_le_used f n
    have hgrant : readGrant f n = min (min n f.used) (f.size - f.rptr) := rfl
    simp only [Side.prepare, prFifoReadPrepare_eq hr]
    refine ⟨⟨hle, rfl, rfl, fun d => by cases d <;> rfl, rfl, by omega⟩, ⟨?_, hw, ?_⟩, ?_⟩
    · exact ptr_lt hr (by omega)
    · intro hsize
      exact ⟨by rw [(h0 hsize).1, Nat.zero_sub], (h0 hsize).2⟩
    · intro hn hzero
      show f.used = 0
      rcases hr with h1 | h1
      · omega
      · exact (h0 h1).1
  | write =>
    have hle := writeGrant_le_free f n
    have hgrant : writeGrant f n = min (min n f.free) (f.size - f.wptr) := rfl
    simp only [Side.prepare, prFifoWritePrepare_eq hw]
    refine ⟨⟨hle, rfl, rfl, fun d => by cases d <;> rfl, rfl, by omega⟩, ⟨hr, ?_, ?_⟩, ?_⟩
    · exact ptr_lt hw (by omega)
    · intro hsize
      exact ⟨(h0 hsize).1, by rw [(h0 hsize).2, Nat.zero_sub]⟩
    · intro hn hzero
      show f.free = 0
      rcases hw with h1 | h1
      · omega
      · exact (h0 h1).2

/-- What a call of `done` for `k` bytes on the side `e` leaves of the FIFO, and the task
that it wakes. -/
structure Gives (e : Side) (f : PrFifo τ) (r : PrFifo τ × Option τ) (k : Nat) : Prop where
  avail : e.avail r.1 = e.avail f
  other : e.other.avail r.1 = e.other.avail f + k
  task : ∀ d : Side, d.task r.1 = d.task f
  size : r.1.size = f.size
  ring : InRing f → 0 < f.size → InRing r.1
  wakes : k ≠ 0 → r.2 = e.other.task f

theorem done_spec (e : Side) (f : PrFifo τ) (k : Nat) : Gives e f (e.done f k) k := by
  cases e with
  | read =>
    simp only [Side.done, prFifoReadDone]
    split
    · exact ⟨rfl, by simp [‹k = 0›], fun _ => rfl, rfl, fun h1 _ => h1, fun h1 => absurd ‹_› h1⟩
    · exact ⟨rfl, rfl, fun d => by cases d <;> rfl, rfl,
        fun h1 h2 => ⟨h1.rptr, h1.wptr, fun h3 => absurd h3 (Nat.ne_of_gt h2)⟩, fun _ => rfl⟩
  | write =>
    simp only [Side.done, prFifoWriteDone]
    split
    · exact ⟨rfl, by simp [‹k = 0›], fun _ => rfl, rfl, fun h1 _ => h1, fun h1 => absurd ‹_› h1⟩
    · exact ⟨rfl, rfl, fun d => by cases d <;> rfl, rfl,
        fun h1 h2 => ⟨h1.rptr, h1.wptr, fun h3 => absurd h3 (Nat.ne_of_gt h2)⟩, fun _ => rfl⟩

/-! ## 2. The system -/

/-- Where a context stands: outside of the FIFO, with bytes that `prepare` has given to it, or
behind the locked section of `done`, where the task of the other side is still to be passed to
`pr_task_exec`. -/
inductive Phase (ι : Type)
  | idle
  /-- `prepare` on this side has returned `count` bytes at `pos`. -/
  | holding (side : Side) (pos count : Nat)
  /-- `done` on this side has released the lock, and `pr_task_exec(task)` is next. -/
  | notifying (side : Side) (task : Option ι)

/-- Where the handler of the task stands. The scheduler has cleared the pending flag before the
handler starts, so it is the loop that has to see what was made available until then. -/
inductive Handler
  | stopped
  /-- It has not seen `prepare` return 0 yet. -/
  | looping
  | leaving
  deriving DecidableEq

/-- The FIFO, the queue, and where each context and the handler stand. `hasRun` tells
whether the handler has run to its end. -/
structure Sys (κ ι : Type) where
  fifo : PrFifo ι
  sched : Sched ι
  phase : Option κ → Phase ι
  handler : Handler
  hasRun : Bool

/-- The labels of the steps: `prepare` and both parts of `done` in any context, the other calls on
the queue of tasks, and the scheduler with the handler that it runs, which has the context `none`.
-/
inductive Act (κ ι : Type)
  /-- A context calls `prepare`. -/
  | prepare (k : κ) (side : Side) (n : Nat)
  /-- The locked section of `done`, for `n` of the bytes that a context holds. -/
  | done (k : Option κ) (n : Nat)
  /-- The `pr_task_exec` behind it. -/
  | notify (k : Option κ) (sdk : Sdk) (fuel : Nat)
  /-- Any other call on the queue. -/
  | call (sdk : Sdk) (fuel : Nat) (c : Call ι)
  /-- The scheduler takes a task to run. -/
  | pop
  /-- The handler calls `prepare`. -/
  | look (n : Nat)
  /-- The handler returns. -/
  | leave

variable [DecidableEq κ] [DecidableEq ι]

def Sys.prepared (s : Sys κ ι) (k : Option κ) (side : Side) (n : Nat) : Sys κ ι :=
  let (count, pos, fifo) := side.prepare s.fifo n
  { s with
    fifo := fifo
    phase := Function.update s.phase k (if count = 0 then .idle else .holding side pos count) }

/-- A context is behind the locked section of `done`. -/
def Sys.finished (s : Sys κ ι) (k : Option κ) (side : Side) (n : Nat) : Sys κ ι :=
  let (fifo, task) := side.done s.fifo n
  { s with fifo := fifo, phase := Function.update s.phase k (.notifying side task) }

/-- One step. The task is `w`, on the side `d`, and its handler calls `prepare` on this
side, for some bytes, until it returns 0. A `done` may be for fewer bytes than were
granted. -/
def step (d : Side) (w : ι) (s : Sys κ ι) : Act κ ι → Option (Sys κ ι)
  | .prepare k side n =>
    match s.phase (some k) with
    | .idle => some (s.prepared (some k) side n)
    | _ => none
  | .done k n =>
    match s.phase k with
    | .holding side _ count => if n ≤ count then some (s.finished k side n) else none
    | _ => none
  | .notify k sdk fuel =>
    match s.phase k with
    | .notifying _ task =>
      ((Call.exec task).run sdk fuel s.sched).toOption.map fun r =>
        { s with sched := r.2, phase := Function.update s.phase k .idle }
    | _ => none
  | .call _ _ .pop => none
  | .call sdk fuel c => (c.run sdk fuel s.sched).toOption.map fun r => { s with sched := r.2 }
  | .pop =>
    match s.handler with
    | .stopped =>
      let (task, sched) := prTaskPendingQueuePop s.sched
      some { s with sched := sched, handler := if task = some w then .looping else .stopped }
    | _ => none
  | .look n =>
    match s.handler, s.phase none with
    | .looping, .idle =>
      if n = 0 then none
      else
        let s' := s.prepared none d n
        some { s' with handler := if (d.prepare s.fifo n).1 = 0 then .leaving else .looping }
    | _, _ => none
  | .leave =>
    match s.handler with
    | .leaving => some { s with handler := .stopped, hasRun := true }
    | _ => none

/-- A FIFO and a queue that have just been initialised, with the task `w` on the side
`d` of the FIFO. -/
structure Fresh (handler : ι → Bool) (d : Side) (w : ι) (s : Sys κ ι) : Prop where
  fifo : ∃ mem size consumer producer, s.fifo =
    prFifoProducerSet (prFifoConsumerSet (prFifoInit mem size) consumer) producer
  task : d.task s.fifo = some w
  sched : Task.Fresh handler s.sched
  handled : handler w = true
  phase : ∀ k, s.phase k = .idle
  stopped : s.handler = .stopped
  first : s.hasRun = false

/-- The contexts `κ` and the scheduler on one FIFO. -/
def wakeup (κ : Type) [DecidableEq κ] (handler : ι → Bool) (d : Side) (w : ι) :
    Lts (Sys κ ι) (Act κ ι) :=
  .ofFun (Fresh handler d w) (step d w)

/-! ## 3. The invariant -/

/-- The task is going to look at the FIFO: it is pending, its handler has not seen the
end yet, or a context is about to wake it. -/
def Awake (d : Side) (w : ι) (s : Sys κ ι) : Prop :=
  (s.sched.tasks w).pending = true ∨ s.handler = .looping ∨
    ∃ k, s.phase k = .notifying d.other (some w)

/-- The FIFO and the queue are as the locked sections leave them. -/
structure Sound (handler : ι → Bool) (d : Side) (w : ι) (s : Sys κ ι) : Prop where
  task : d.task s.fifo = some w
  ring : InRing s.fifo
  room : ∀ k side pos count, s.phase k = .holding side pos count → 0 < s.fifo.size
  queue : ∃ a, Represents handler s.sched a
  handled : handler w = true

/-- The invariant. On the side of the consumers the FIFO is empty at first. On that of
the producers it is full when the handler has run. -/
structure Inv (handler : ι → Bool) (d : Side) (w : ι) (s : Sys κ ι) : Prop where
  sound : Sound handler d w s
  awake : d = .read ∨ s.hasRun = true ∨ s.handler = .leaving → 0 < d.avail s.fifo → Awake d w s

variable {handler : ι → Bool} {d : Side} {w : ι}

omit [DecidableEq κ] [DecidableEq ι] in
theorem fresh_inv {s : Sys κ ι} (h : Fresh handler d w s) : Inv handler d w s := by
  obtain ⟨mem, size, consumer, producer, hf⟩ := h.fifo
  refine ⟨⟨h.task, ?_, ?_, ⟨_, h.sched.represents⟩, h.handled⟩, ?_⟩
  · rw [hf]
    refine ⟨?_, ?_, fun h1 => ⟨rfl, h1⟩⟩
    · exact (Nat.eq_zero_or_pos size).symm
    · exact (Nat.eq_zero_or_pos size).symm
  · intro k side pos count hk
    rw [h.phase k] at hk
    cases hk
  · rintro (rfl | h1 | h1) havail
    · rw [hf] at havail
      exact absurd havail (Nat.lt_irrefl 0)
    · rw [h.first] at h1
      cases h1
    · rw [h.stopped] at h1
      cases h1

omit [DecidableEq ι] in
/-- A context that was not about to wake the task does something else. -/
theorem notifying_update {phase : Option κ → Phase ι} {k : Option κ} {side : Side}
    {task : Option ι} (hk : phase k ≠ .notifying side task) (p : Phase ι) {k' : Option κ}
    (hk' : phase k' = .notifying side task) :
    Function.update phase k p k' = .notifying side task := by
  have hne : k' ≠ k := by
    rintro rfl
    exact hk hk'
  rw [Function.update_of_ne hne, hk']

omit [DecidableEq κ] [DecidableEq ι] in
/-- The task stays awake as long as its flag and the contexts about to wake it stay. -/
theorem Awake.keep {s s' : Sys κ ι} (h : Awake d w s)
    (hpending : (s.sched.tasks w).pending = true → (s'.sched.tasks w).pending = true)
    (hloop : s.handler = .looping → s'.handler = .looping)
    (hphase : ∀ k, s.phase k = .notifying d.other (some w) →
      s'.phase k = .notifying d.other (some w)) : Awake d w s' := by
  rcases h with h1 | h1 | ⟨k, hk⟩
  · exact .inl (hpending h1)
  · exact .inr (.inl (hloop h1))
  · exact .inr (.inr ⟨k, hphase k hk⟩)

/-! ### The locked sections of the FIFO -/

omit [DecidableEq ι] in
theorem prepared_sound {s : Sys κ ι} (h : Sound handler d w s) (k : Option κ) (side : Side)
    (n : Nat) : Sound handler d w (s.prepared k side n) := by
  obtain ⟨htakes, hring, -⟩ := prepare_spec side h.ring n
  refine ⟨(htakes.task d).trans h.task, hring, fun k' side' pos count hk' => ?_, h.queue, h.handled⟩
  show 0 < (side.prepare s.fifo n).2.2.size
  rw [htakes.size]
  have hk' : Function.update s.phase k (if (side.prepare s.fifo n).1 = 0 then .idle
      else .holding side (side.prepare s.fifo n).2.1 (side.prepare s.fifo n).1) k' =
        .holding side' pos count := hk'
  by_cases he : k' = k
  · subst he
    rw [Function.update_self] at hk'
    split at hk'
    · cases hk'
    · exact Nat.lt_of_lt_of_le (Nat.pos_of_ne_zero ‹_›) htakes.room
  · rw [Function.update_of_ne he] at hk'
    exact h.room k' side' pos count hk'

omit [DecidableEq ι] in
theorem prepared_avail {s : Sys κ ι} (h : Sound handler d w s) (k : Option κ) (side : Side)
    (n : Nat) : d.avail (s.prepared k side n).fifo ≤ d.avail s.fifo := by
  obtain ⟨htakes, -⟩ := prepare_spec side h.ring n
  have hle : side.avail (side.prepare s.fifo n).2.2 ≤ side.avail s.fifo := by
    rw [htakes.avail]
    exact Nat.sub_le _ _
  show d.avail (side.prepare s.fifo n).2.2 ≤ _
  cases d with
  | read =>
    cases side with
    | read => exact hle
    | write => exact Nat.le_of_eq htakes.other
  | write =>
    cases side with
    | read => exact Nat.le_of_eq htakes.other
    | write => exact hle

omit [DecidableEq ι] in
theorem prepared_inv {s : Sys κ ι} (h : Inv handler d w s) {k : Option κ}
    (hk : s.phase k = .idle) (side : Side) (n : Nat) :
    Inv handler d w (s.prepared k side n) := by
  refine ⟨prepared_sound h.sound k side n, fun hwhen havail => ?_⟩
  have hawake := h.awake hwhen (Nat.lt_of_lt_of_le havail (prepared_avail h.sound k side n))
  refine hawake.keep (fun h1 => h1) (fun h1 => h1) fun k' hk' => ?_
  refine notifying_update ?_ _ hk'
  rw [hk]
  exact fun h1 => by cases h1

omit [DecidableEq ι] in
theorem finished_inv {s : Sys κ ι} (h : Inv handler d w s) {k : Option κ} {side : Side}
    {pos count : Nat} (hk : s.phase k = .holding side pos count) (n : Nat) :
    Inv handler d w (s.finished k side n) := by
  have hgives := done_spec side s.fifo n
  have hsize := h.sound.room k side pos count hk
  have hother : ∀ k', s.phase k' = .notifying d.other (some w) →
      (s.finished k side n).phase k' = .notifying d.other (some w) := by
    intro k' hk'
    refine notifying_update ?_ _ hk'
    rw [hk]
    exact fun h1 => by cases h1
  refine ⟨⟨(hgives.task d).trans h.sound.task, hgives.ring h.sound.ring hsize, ?_, h.sound.queue,
    h.sound.handled⟩, fun hwhen havail => ?_⟩
  · intro k' side' pos' count' _
    show 0 < (side.done s.fifo n).1.size
    rw [hgives.size]
    exact hsize
  have hsame : d.avail (side.done s.fifo n).1 = d.avail s.fifo →
      Awake d w (s.finished k side n) := by
    intro heq
    have havail : 0 < d.avail (side.done s.fifo n).1 := havail
    rw [heq] at havail
    exact (h.awake hwhen havail).keep (fun h1 => h1) (fun h1 => h1) hother
  by_cases hside : side = d
  · exact hsame (hside ▸ hgives.avail)
  have hd : side.other = d := by
    cases side with
    | read =>
      cases d with
      | read => exact absurd rfl hside
      | write => rfl
    | write =>
      cases d with
      | read => rfl
      | write => exact absurd rfl hside
  by_cases hn : n = 0
  · exact hsame (by rw [← hd, hgives.other, hn, Nat.add_zero])
  -- The bytes have come, and the context is going to wake the task.
  refine .inr (.inr ⟨k, ?_⟩)
  have hwakes : (side.done s.fifo n).2 = some w := by
    rw [hgives.wakes hn, hd]
    exact h.sound.task
  show Function.update s.phase k (.notifying side (side.done s.fifo n).2) k = _
  rw [Function.update_self, hwakes, ← hd]
  cases side with
  | read => rfl
  | write => rfl

/-! ### The queue -/

omit [DecidableEq κ] in
theorem called_inv {s : Sys κ ι} (h : Inv handler d w s) {sdk : Sdk} {fuel : Nat} {c : Call ι}
    (hc : c ≠ .pop) {reply : Reply ι} {sched : Sched ι}
    (hrun : c.run sdk fuel s.sched = .ok (reply, sched)) :
    Inv handler d w { s with sched := sched } ∧
      ((s.sched.tasks w).pending = true → (sched.tasks w).pending = true) ∧
      (c = .exec (some w) → (sched.tasks w).pending = true) := by
  obtain ⟨a, ha⟩ := h.sound.queue
  obtain ⟨-, ha'⟩ := call_of_represents ha ⟨fuel, hrun⟩
  have hkeep : (s.sched.tasks w).pending = true → (sched.tasks w).pending = true := fun h1 =>
    (ha'.pending_flag w).mpr (mem_pending_call sdk hc ((ha.pending_flag w).mp h1))
  refine ⟨⟨⟨h.sound.task, h.sound.ring, h.sound.room, ⟨_, ha'⟩, h.sound.handled⟩, ?_⟩, hkeep, ?_⟩
  · exact fun hwhen havail => (h.awake hwhen havail).keep hkeep (fun h1 => h1) fun _ h1 => h1
  · rintro rfl
    refine (ha'.pending_flag w).mpr ?_
    rw [Schedule.call, if_pos h.sound.handled]
    exact mem_pending_exec a w

theorem notified_inv {s : Sys κ ι} (h : Inv handler d w s) {k : Option κ} {side : Side}
    {task : Option ι} (hk : s.phase k = .notifying side task) {sdk : Sdk} {fuel : Nat}
    {reply : Reply ι} {sched : Sched ι}
    (hrun : (Call.exec task).run sdk fuel s.sched = .ok (reply, sched)) :
    Inv handler d w { s with sched := sched, phase := Function.update s.phase k .idle } := by
  obtain ⟨hinv, hkeep, hexec⟩ := called_inv h (fun h1 => by cases h1) hrun
  refine ⟨⟨h.sound.task, h.sound.ring, ?_, hinv.sound.queue, h.sound.handled⟩, ?_⟩
  · intro k' side' pos count hk'
    have hk' : Function.update s.phase k .idle k' = .holding side' pos count := hk'
    by_cases he : k' = k
    · subst he
      rw [Function.update_self] at hk'
      cases hk'
    · rw [Function.update_of_ne he] at hk'
      exact h.sound.room k' side' pos count hk'
  · intro hwhen havail
    by_cases htask : task = some w
    · exact .inl (hexec (congrArg Call.exec htask))
    · refine (h.awake hwhen havail).keep hkeep (fun h1 => h1) fun k' hk' => ?_
      refine notifying_update ?_ _ hk'
      rw [hk]
      intro h1
      cases h1
      exact htask rfl

omit [DecidableEq κ] in
theorem popped_inv {s : Sys κ ι} (h : Inv handler d w s) (hstopped : s.handler = .stopped) :
    Inv handler d w { s with
      sched := (prTaskPendingQueuePop s.sched).2
      handler := if (prTaskPendingQueuePop s.sched).1 = some w then .looping else .stopped } := by
  obtain ⟨a, ha⟩ := h.sound.queue
  obtain ⟨hhead, ha', -⟩ := prTaskPendingQueuePop_represents ha
  refine ⟨⟨h.sound.task, h.sound.ring, h.sound.room, ⟨_, ha'⟩, h.sound.handled⟩, ?_⟩
  intro hwhen havail
  by_cases htask : (prTaskPendingQueuePop s.sched).1 = some w
  · exact .inr (.inl (if_pos htask))
  · have hwhen : d = .read ∨ s.hasRun = true ∨ s.handler = .leaving := by
      rcases hwhen with h1 | h1 | h1
      · exact .inl h1
      · exact .inr (.inl h1)
      · exact absurd h1 (by simp [htask])
    refine (h.awake hwhen havail).keep (fun h1 => ?_) (fun h1 => ?_) fun _ h1 => h1
    · refine (ha'.pending_flag w).mpr (mem_pending_pop ((ha.pending_flag w).mp h1) ?_)
      rw [← hhead]
      exact htask
    · rw [hstopped] at h1
      cases h1

/-! ### The handler -/

omit [DecidableEq ι] in
theorem looked_inv {s : Sys κ ι} (h : Inv handler d w s) {n : Nat} (hn : 0 < n) :
    Inv handler d w { s.prepared none d n with
      handler := if (d.prepare s.fifo n).1 = 0 then .leaving else .looping } := by
  have hsound := prepared_sound h.sound none d n
  refine ⟨⟨hsound.task, hsound.ring, hsound.room, hsound.queue, hsound.handled⟩, ?_⟩
  intro _ havail
  by_cases hzero : (d.prepare s.fifo n).1 = 0
  · -- The handler leaves, since there is nothing left.
    obtain ⟨htakes, -, hempty⟩ := prepare_spec d h.sound.ring n
    have havail : 0 < d.avail (d.prepare s.fifo n).2.2 := havail
    rw [htakes.avail, hempty hn hzero, Nat.zero_sub] at havail
    exact absurd havail (Nat.lt_irrefl 0)
  · exact .inr (.inl (if_neg hzero))

omit [DecidableEq κ] [DecidableEq ι] in
theorem left_inv {s : Sys κ ι} (h : Inv handler d w s) (hleaving : s.handler = .leaving) :
    Inv handler d w { s with handler := .stopped, hasRun := true } := by
  refine ⟨⟨h.sound.task, h.sound.ring, h.sound.room, h.sound.queue, h.sound.handled⟩, ?_⟩
  intro _ havail
  refine (h.awake (.inr (.inr hleaving)) havail).keep (fun h1 => h1) (fun h1 => ?_) fun _ h1 => h1
  rw [hleaving] at h1
  cases h1

/-! ## 4. Main result -/

theorem step_inv {s t : Sys κ ι} {a : Act κ ι} (h : Inv handler d w s)
    (hs : step d w s a = some t) : Inv handler d w t := by
  cases a with
  | prepare k side n =>
    rw [step] at hs
    split at hs
    · cases hs
      exact prepared_inv h ‹_› side n
    · cases hs
  | done k n =>
    rw [step] at hs
    split at hs
    · split at hs
      · cases hs
        exact finished_inv h ‹_› n
      · cases hs
    · cases hs
  | notify k sdk fuel =>
    rw [step] at hs
    split at hs
    · rename_i side task hk
      cases hrun : (Call.exec task).run sdk fuel s.sched with
      | error e =>
        rw [hrun] at hs
        cases hs
      | ok r =>
        rw [hrun] at hs
        cases hs
        exact notified_inv h hk hrun
    · cases hs
  | call sdk fuel c =>
    have hcall : c ≠ .pop ∧
        (c.run sdk fuel s.sched).toOption.map (fun r => { s with sched := r.2 }) = some t := by
      cases c with
      | pop => cases hs
      | exec | execInUs | execInMs | alarm => exact ⟨(fun h1 => by cases h1), hs⟩
    obtain ⟨hc, hs⟩ := hcall
    obtain ⟨r, hrun, rfl⟩ := Option.map_eq_some_iff.mp hs
    exact (called_inv h hc (toOption_eq_some.mp hrun)).1
  | pop =>
    rw [step] at hs
    split at hs
    · cases hs
      exact popped_inv h ‹_›
    · cases hs
  | look n =>
    rw [step] at hs
    split at hs
    · split at hs
      · cases hs
      · cases hs
        exact looked_inv h (Nat.pos_of_ne_zero ‹_›)
    · cases hs
  | leave =>
    rw [step] at hs
    split at hs
    · cases hs
      exact left_inv h ‹_›
    · cases hs

theorem reachable_inv {s : Sys κ ι} (h : (wakeup κ handler d w).Reachable s) :
    Inv handler d w s :=
  h.invariant (I := Inv handler d w) (fun _ h0 => fresh_inv h0) fun _ _ _ h1 hs => step_inv h1 hs

omit [DecidableEq κ] [DecidableEq ι] in
theorem Awake.running {s : Sys κ ι} (h : Awake d w s) :
    (s.sched.tasks w).pending = true ∨ s.handler ≠ .stopped ∨
      ∃ k, s.phase k = .notifying d.other (some w) := by
  refine h.imp_right (Or.imp_left fun h1 => ?_)
  rw [h1]
  decide

/-- No wake-up is lost. Whenever there are bytes to read, the consumer task is pending,
or its handler is running, or a `write_done` is about to pass the task to
`pr_task_exec`. The same holds of free space, the producer task and `read_done`, once
its handler has run. -/
theorem no_lost_wakeup (κ : Type) [DecidableEq κ] (handler : ι → Bool) (w : ι) :
    (∀ s, (wakeup κ handler .read w).Reachable s → 0 < s.fifo.used →
      (s.sched.tasks w).pending = true ∨ s.handler ≠ .stopped ∨
        ∃ k, s.phase k = .notifying .write (some w)) ∧
    (∀ s, (wakeup κ handler .write w).Reachable s → s.hasRun = true → 0 < s.fifo.free →
      (s.sched.tasks w).pending = true ∨ s.handler ≠ .stopped ∨
        ∃ k, s.phase k = .notifying .read (some w)) := by
  refine ⟨fun s hs havail => ?_, fun s hs hrun havail => ?_⟩
  · exact ((reachable_inv hs).awake (.inl rfl) havail).running
  · exact ((reachable_inv hs).awake (.inr (.inl hrun)) havail).running

namespace WakeupLemmas

open RefineLemmas

/-- A FIFO of three bytes with the task `true` on the side `d`, and the queue. -/
def quiet (d : Side) : Sys Unit Bool where
  fifo := prFifoProducerSet (prFifoConsumerSet (prFifoInit (fun _ => 0) 3)
    (match d with | .read => some true | .write => none))
    (match d with | .read => none | .write => some true)
  sched := start
  phase _ := .idle
  handler := .stopped
  hasRun := false

theorem quiet_fresh (d : Side) : Fresh (fun _ => true) d true (quiet d) := by
  refine ⟨⟨_, _, _, _, rfl⟩, ?_, fresh_start, rfl, fun _ => rfl, rfl, rfl⟩
  cases d with
  | read => rfl
  | write => rfl

/-- Two bytes are written, and the consumer is about to be woken. -/
def writes : List (Act Unit Bool) := [.prepare () .write 2, .done (some ()) 2]

/-- The producer fills the FIFO, and one byte is read. -/
def fillsAndReads : List (Act Unit Bool) :=
  [.call (sdkAt 0) 1 (.exec (some true)), .pop, .look 5, .done none 3,
    .notify none (sdkAt 0) 1, .look 5, .leave, .prepare () .read 1, .done (some ()) 1]

end WakeupLemmas

open WakeupLemmas in
theorem no_lost_wakeup_three :
    (∃ s, (wakeup Unit (fun _ => true) .read true).Reachable s ∧ s.fifo.used = 2 ∧
      ((s.sched.tasks true).pending = true ∨ s.handler ≠ .stopped ∨
        ∃ k, s.phase k = .notifying .write (some true))) ∧
    ∃ s, (wakeup Unit (fun _ => true) .write true).Reachable s ∧ s.fifo.free = 1 ∧
      ((s.sched.tasks true).pending = true ∨ s.handler ≠ .stopped ∨
        ∃ k, s.phase k = .notifying .read (some true)) := by
  constructor
  · have hrun : exec (step .read true) (quiet .read) writes = some _ := rfl
    have hs := Lts.reachable_exec (.init (quiet_fresh .read)) hrun
    exact ⟨_, hs, rfl, (no_lost_wakeup Unit (fun _ => true) true).1 _ hs (by decide)⟩
  · have hrun : exec (step .write true) (quiet .write) fillsAndReads = some _ := rfl
    have hs := Lts.reachable_exec (.init (quiet_fresh .write)) hrun
    exact ⟨_, hs, rfl, (no_lost_wakeup Unit (fun _ => true) true).2 _ hs rfl (by decide)⟩

end Picore.Fifo.Wakeup
