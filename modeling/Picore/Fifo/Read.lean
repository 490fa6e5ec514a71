import Picore.Fifo.ZeroCopy
import Picore.Lib.Fuel

/-!
# The copying read (`pr_fifo_read`, `pr_fifo_peek`)

`pr_fifo_read` repeats prepare, copy and done until a round transfers nothing.
Its body declares a second variable `transferred`, which hides the one that the
loop condition names. Nothing ever assigns the outer variable, so its
indeterminate value on entry alone decides how many rounds there are: one if it
is zero, and no end otherwise.

Results:
1. `prFifoPeek_eq`: a peek copies the oldest bytes, across the wrap.
2. `prFifoReadLoop_timeout`, `prFifoReadLoop_zero`: the loop for both kinds of
   entry value.
3. `fifo_read_complete_iff`: when the read is a complete dequeue.
   `fifo_read_wrapped_incomplete`: a state where it never is.
-/

namespace Picore.Fifo

open Memory Ring Fuel Transition

variable {τ : Type}

/-- The bytes that a FIFO holds, in the order in which they are going to be read. They may lie
across the end of the buffer. -/
def queued (f : PrFifo τ) : List UInt8 :=
  contents f.buffer f.size f.rptr f.used

/-- `pr_fifo_peek` into the array `data`: the returned size and the array
afterwards. -/
def prFifoPeek (f : PrFifo τ) (data : Mem UInt8) (size : Nat) : Nat × Mem UInt8 :=
  let size := if f.used < size then f.used else size
  let wraps := f.size - f.rptr < size
  let s1 := if wraps then f.size - f.rptr else size
  let s2 := if wraps then size - s1 else 0
  let data := if s1 ≠ 0 then store data 0 (load f.buffer f.rptr s1) else data
  let data := if s2 ≠ 0 then store data s1 (load f.buffer 0 s2) else data
  (size, data)

/-- The FIFO, the array `data`, the count `done` and the tasks passed to
`pr_task_exec` while `pr_fifo_read` runs. -/
structure ReadState (τ : Type) where
  fifo : PrFifo τ
  data : Mem UInt8
  done : Nat
  execs : List τ

/-- The body of the loop of `pr_fifo_read`. The variable `transferred` in it is
the inner one. -/
def prFifoReadRound (size : Nat) (st : ReadState τ) : ReadState τ :=
  let (transferred, src, fifo) := prFifoReadPrepare st.fifo (size - st.done)
  if transferred ≠ 0 then
    let (fifo', task) := prFifoReadDone fifo transferred
    { fifo := fifo'
      data := store st.data st.done (load fifo.buffer src transferred)
      done := st.done + transferred
      execs := st.execs ++ task.toList }
  else
    { st with fifo := fifo, done := st.done + transferred }

/-- The loop of `pr_fifo_read`. Its condition reads the outer `transferred`,
which no round changes. -/
def prFifoReadLoop (size transferred : Nat) : Nat → ReadState τ → Outcome Empty (ReadState τ)
  | 0, _ => .error .timeout
  | fuel + 1, st =>
    let st := prFifoReadRound size st
    if transferred ≠ 0 then prFifoReadLoop size transferred fuel st else .ok st

/-- `pr_fifo_read`, entered with the value `transferred` in the outer variable
of that name. -/
def prFifoRead (transferred : Nat) (f : PrFifo τ) (data : Mem UInt8) (size fuel : Nat) :
    Outcome Empty (ReadState τ) :=
  if size = 0 then .ok ⟨f, data, 0, []⟩
  else prFifoReadLoop size transferred fuel ⟨f, data, 0, []⟩

/-! ## 1. Peek -/

/-- The pointers and counters of a FIFO without open reservations. -/
structure Settled (f : PrFifo τ) : Prop where
  rptr_ok : f.rptr < f.size ∨ f.size = 0
  rptr_le : f.rptr ≤ f.size
  used_le : f.used ≤ f.size

theorem reachable_settled {size : Nat} {s : ZeroCopy.Sys τ}
    (h : (ZeroCopy.zeroCopy τ size).Reachable s) : Settled s.fifo := by
  obtain ⟨C, D, hi⟩ := ZeroCopy.reachable_inv h
  have htot := hi.total
  have hsize := hi.fixed
  exact ⟨hi.rptr_ok, hi.rptr_le, by omega⟩

/-- `pr_fifo_peek` returns `min n used` and copies that many of the oldest
bytes. -/
theorem prFifoPeek_eq {f : PrFifo τ} (h : Settled f) (data : Mem UInt8) (n : Nat) :
    prFifoPeek f data n = (min n f.used, store data 0 ((queued f).take (min n f.used))) := by
  have hmin : (if f.used < n then f.used else n) = min n f.used := by
    split <;> omega
  have hle : min n f.used ≤ f.used := Nat.min_le_right _ _
  have hk : min n f.used ≤ f.size := Nat.le_trans hle h.used_le
  have hstore : ∀ (m : Mem UInt8) (p q k : Nat),
      (if k ≠ 0 then store m p (load f.buffer q k) else m) = store m p (load f.buffer q k) := by
    intro m p q k
    rcases Nat.eq_zero_or_pos k with rfl | hk
    · simp
    · rw [if_pos (by omega)]
  unfold prFifoPeek
  simp only [hmin, hstore, Prod.mk.injEq, true_and]
  unfold queued
  rw [contents_take _ hle]
  split
  · next hw =>
    rw [contents_wrap f.buffer h.rptr_le hk hw, store_append]
    simp
  · next hw =>
    have hfit : f.rptr + min n f.used ≤ f.size := by
      have := h.rptr_le
      omega
    rw [load_eq_contents f.buffer hfit]
    simp

/-! ## 2. The loop -/

/-- `f` after one round of a read has taken `k` bytes. -/
def taken (f : PrFifo τ) (k : Nat) : PrFifo τ :=
  { f with
    used := f.used - k
    rptr := if f.rptr + k = f.size then 0 else f.rptr + k
    free := f.free + k }

theorem prFifoReadRound_eq {st : ReadState τ} (h : Settled st.fifo) (size : Nat) :
    ∃ execs, prFifoReadRound size st =
      { fifo := taken st.fifo (readGrant st.fifo (size - st.done))
        data := store st.data st.done
          (load st.fifo.buffer st.fifo.rptr (readGrant st.fifo (size - st.done)))
        done := st.done + readGrant st.fifo (size - st.done)
        execs := execs } := by
  unfold prFifoReadRound
  simp only [prFifoReadPrepare_eq h.rptr_ok, prFifoReadDone_fst]
  split
  · exact ⟨_, rfl⟩
  · next hz =>
    rw [not_not] at hz
    refine ⟨st.execs, ?_⟩
    simp [hz, taken]

theorem taken_rptr {f : PrFifo τ} (h : Settled f) {k : Nat} (hfit : f.rptr + k ≤ f.size) :
    (taken f k).rptr = (f.rptr + k) % f.size := by
  have hrptr : f.rptr = f.rptr % f.size := by
    rcases h.rptr_ok with hlt | hsize
    · exact (Nat.mod_eq_of_lt hlt).symm
    · rw [hsize, Nat.mod_zero]
  exact ZeroCopy.moved_pointer hrptr hfit

/-- What is left after a round is what the FIFO held after the bytes taken. -/
theorem queued_taken {f : PrFifo τ} (h : Settled f) {k : Nat} (hk : k ≤ f.used)
    (hfit : f.rptr + k ≤ f.size) : queued (taken f k) = (queued f).drop k := by
  rw [queued, taken_rptr h hfit]
  show contents f.buffer f.size ((f.rptr + k) % f.size) (f.used - k) = _
  rw [contents_mod, queued, contents_drop _ hk]

/-- With a non-zero value in the outer variable the loop never ends. -/
theorem prFifoReadLoop_timeout {transferred : Nat} (ht : transferred ≠ 0) (size fuel : Nat)
    (st : ReadState τ) : prFifoReadLoop size transferred fuel st = .error .timeout := by
  induction fuel generalizing st with
  | zero => rfl
  | succ fuel ih =>
    rw [prFifoReadLoop, if_pos ht]
    exact ih _

/-- With zero in the outer variable the loop is one round. -/
theorem prFifoReadLoop_zero (size fuel : Nat) (st : ReadState τ) :
    prFifoReadLoop size 0 (fuel + 1) st = .ok (prFifoReadRound size st) := by
  rw [prFifoReadLoop, if_neg (by simp)]

/-! ## 3. Complete dequeues -/

/-- `pr_fifo_read f data n` ends, returns `min n used`, leaves in `data` exactly
what a peek would have left there, and removes exactly these bytes. -/
def CompleteDequeue (transferred : Nat) (f : PrFifo τ) (data : Mem UInt8) (n : Nat) : Prop :=
  ∃ r, Returns (prFifoRead transferred f data n) r ∧
    r.done = min n f.used ∧
    r.data = store data 0 ((queued f).take r.done) ∧
    prFifoPeek f data n = (r.done, r.data) ∧
    queued r.fifo = (queued f).drop r.done ∧
    r.fifo.free = f.free + r.done

theorem completeDequeue_zero {f : PrFifo τ} (h : Settled f) (transferred : Nat) (data : Mem UInt8) :
    CompleteDequeue transferred f data 0 := by
  refine ⟨⟨f, data, 0, []⟩, ⟨0, rfl⟩, by simp, by simp, ?_, rfl, rfl⟩
  simp [prFifoPeek_eq h]

/-- One round is enough for bytes that do not wrap. -/
theorem completeDequeue_fits {f : PrFifo τ} (h : Settled f) (data : Mem UInt8) {n : Nat}
    (hn : n ≠ 0) (hfit : min n f.used ≤ f.size - f.rptr) : CompleteDequeue 0 f data n := by
  obtain ⟨execs, hround⟩ := @prFifoReadRound_eq _ ⟨f, data, 0, []⟩ h n
  have hgrant : readGrant f (n - 0) = min n f.used := by
    unfold readGrant
    omega
  have hle : min n f.used ≤ f.used := Nat.min_le_right _ _
  have hroom : f.rptr + min n f.used ≤ f.size := by
    have := h.rptr_le
    omega
  have hload : load f.buffer f.rptr (min n f.used) = (queued f).take (min n f.used) := by
    unfold queued
    rw [contents_take _ hle, load_eq_contents f.buffer hroom]
  simp only [hgrant, hload, Nat.zero_add] at hround
  have hread : prFifoRead 0 f data n 1 = .ok ⟨taken f (min n f.used),
      store data 0 ((queued f).take (min n f.used)), min n f.used, execs⟩ := by
    rw [prFifoRead, if_neg hn, prFifoReadLoop_zero, hround]
  exact ⟨_, ⟨1, hread⟩, rfl, rfl, prFifoPeek_eq h data n, queued_taken h hle hroom, rfl⟩

/-- The read is complete when it asks for nothing, or when it makes one round
and the bytes asked for do not wrap. -/
theorem completeDequeue_iff {f : PrFifo τ} (h : Settled f) (transferred : Nat) (data : Mem UInt8)
    (n : Nat) : CompleteDequeue transferred f data n ↔
      n = 0 ∨ transferred = 0 ∧ min n f.used ≤ f.size - f.rptr := by
  by_cases hn : n = 0
  · subst hn
    exact iff_of_true (completeDequeue_zero h transferred data) (.inl rfl)
  constructor
  · rintro ⟨r, ⟨fuel, hr⟩, hdone, -⟩
    rw [prFifoRead, if_neg hn] at hr
    by_cases ht : transferred = 0
    · subst ht
      refine .inr ⟨rfl, ?_⟩
      cases fuel with
      | zero => cases hr
      | succ fuel =>
        obtain ⟨execs, hround⟩ := @prFifoReadRound_eq _ ⟨f, data, 0, []⟩ h n
        rw [prFifoReadLoop_zero, hround] at hr
        obtain rfl := Except.ok.inj hr
        simp only [readGrant, Nat.sub_zero, Nat.zero_add] at hdone
        omega
    · rw [prFifoReadLoop_timeout ht] at hr
      cases hr
  · rintro (h0 | ⟨rfl, hfit⟩)
    · exact absurd h0 hn
    · exact completeDequeue_fits h data hn hfit

/-- For every reachable FIFO, every request and every value on entry of the
outer `transferred`, the read is a complete dequeue iff nothing is asked for, or
that value is zero and the bytes to read do not wrap. -/
theorem fifo_read_complete_iff {size : Nat} {s : ZeroCopy.Sys τ}
    (h : (ZeroCopy.zeroCopy τ size).Reachable s) (transferred : Nat) (data : Mem UInt8) (n : Nat) :
    CompleteDequeue transferred s.fifo data n ↔
      n = 0 ∨ transferred = 0 ∧ min n s.fifo.used ≤ s.fifo.size - s.fifo.rptr :=
  completeDequeue_iff (reachable_settled h) transferred data n

namespace ReadLemmas

def freshFour : ZeroCopy.Sys Unit where
  fifo := prFifoProducerSet (prFifoConsumerSet (prFifoInit (fun _ => 0) 4) none) none
  producer := .closed
  consumer := .closed
  stored := []
  loaded := []

/-- Three bytes are written, two of them read, and two more written: the three
bytes that are left wrap. -/
def wrapActs : List ZeroCopy.Act :=
  [.writePrepare 3, .store [1, 2, 3], .writeDone, .readPrepare 2, .load, .readDone,
    .writePrepare 1, .store [4], .writeDone, .writePrepare 1, .store [5], .writeDone]

theorem freshFour_reachable : (ZeroCopy.zeroCopy Unit 4).Reachable freshFour :=
  .init ⟨fun _ => 0, none, none, rfl⟩

end ReadLemmas

open ReadLemmas in
/-- In the FIFO that holds `3, 4, 5` across the wrap, a read of two bytes stops before the wrap. It
is complete with zero in the outer variable, and with no other value. -/
theorem fifo_read_complete_iff_wrapped :
    ∃ s : ZeroCopy.Sys Unit, (ZeroCopy.zeroCopy Unit 4).Reachable s ∧
      queued s.fifo = [3, 4, 5] ∧ s.fifo.rptr = 2 ∧
      CompleteDequeue 0 s.fifo (fun _ => 0) 2 ∧ ¬ CompleteDequeue 1 s.fifo (fun _ => 0) 2 := by
  have hrun := Lts.reachable_exec freshFour_reachable
    (show exec ZeroCopy.step freshFour wrapActs = some _ from rfl)
  refine ⟨_, hrun, rfl, rfl, ?_, fun h => ?_⟩
  · exact (fifo_read_complete_iff hrun 0 (fun _ => 0) 2).mpr (.inr ⟨rfl, by decide⟩)
  · rcases (fifo_read_complete_iff hrun 1 (fun _ => 0) 2).mp h with h0 | ⟨h1, -⟩
    · exact absurd h0 (by decide)
    · exact absurd h1 (by decide)

open ReadLemmas in
/-- A FIFO holding `3, 4, 5` across the wrap: a read of three bytes is never
complete. It stops after `3, 4` or does not end, whatever the outer variable
holds. -/
theorem fifo_read_wrapped_incomplete :
    ∃ s : ZeroCopy.Sys Unit, (ZeroCopy.zeroCopy Unit 4).Reachable s ∧
      s.producer.count = 0 ∧ s.consumer.count = 0 ∧ queued s.fifo = [3, 4, 5] ∧
      ∀ transferred data, ¬ CompleteDequeue transferred s.fifo data 3 := by
  have hrun := Lts.reachable_exec freshFour_reachable
    (show exec ZeroCopy.step freshFour wrapActs = some _ from rfl)
  refine ⟨_, hrun, rfl, rfl, rfl, fun transferred data h => ?_⟩
  have hc := (completeDequeue_iff (reachable_settled hrun) transferred data 3).mp h
  revert hc
  rintro (hc | ⟨-, hc⟩)
  · exact absurd hc (by decide)
  · exact absurd hc (by decide)

end Picore.Fifo
