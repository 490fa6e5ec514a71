import Picore.Lib.Ring

/-!
# The FIFO ring buffer (`src/fifo/fifo.c`)

The functions of `fifo.c` on one `struct pr_fifo`. Each section that the code
runs under the FIFO spin lock is one definition, so a caller that interleaves
them sees the same states as the code.

`wptr`, `rptr`, `free` and `used` are `uint32_t` in the source. They are natural
numbers here: in every state the code can reach they are at most `size`
(`ZeroCopy.zero_copy_correct`), so no addition wraps and no subtraction
underflows.

A task handle has the type `τ`. A `done` function returns the task that it
passes to `pr_task_exec`, `none` standing for the null pointer.
-/

namespace Picore.Fifo

open Memory

variable {τ : Type}

/-- `struct pr_fifo` with the buffer that it points to. The lock is not in it, since each locked
section is one definition. -/
structure PrFifo (τ : Type) where
  consumer : Option τ
  producer : Option τ
  buffer : Mem UInt8
  size : Nat
  wptr : Nat
  rptr : Nat
  free : Nat
  used : Nat

/-- `pr_fifo_init`, `mem` being what `malloc` returned. -/
def prFifoInit (mem : Mem UInt8) (size : Nat) : PrFifo τ where
  consumer := none
  producer := none
  buffer := mem
  size := size
  wptr := 0
  rptr := 0
  free := size
  used := 0

def prFifoConsumerSet (f : PrFifo τ) (task : Option τ) : PrFifo τ :=
  { f with consumer := task }

def prFifoProducerSet (f : PrFifo τ) (task : Option τ) : PrFifo τ :=
  { f with producer := task }

/-- `pr_fifo_read_prepare`: the returned size, the offset of `*data` in the
buffer, and the FIFO after the locked section. -/
def prFifoReadPrepare (f : PrFifo τ) (size : Nat) : Nat × Nat × PrFifo τ :=
  let size := if f.used < size then f.used else size
  let rptr := f.rptr
  let size := if f.size - rptr < size then f.size - rptr else size
  if size ≠ 0 then
    let used := f.used - size
    let next := f.rptr + size
    (size, rptr, { f with used := used, rptr := if next = f.size then 0 else next })
  else
    (size, rptr, f)

def prFifoReadDone (f : PrFifo τ) (size : Nat) : PrFifo τ × Option τ :=
  if size = 0 then (f, none) else ({ f with free := f.free + size }, f.producer)

/-- `pr_fifo_write_prepare`, with results as for `prFifoReadPrepare`. -/
def prFifoWritePrepare (f : PrFifo τ) (size : Nat) : Nat × Nat × PrFifo τ :=
  let size := if f.free < size then f.free else size
  let wptr := f.wptr
  let size := if f.size - wptr < size then f.size - wptr else size
  if size ≠ 0 then
    let free := f.free - size
    let next := f.wptr + size
    (size, wptr, { f with free := free, wptr := if next = f.size then 0 else next })
  else
    (size, wptr, f)

def prFifoWriteDone (f : PrFifo τ) (size : Nat) : PrFifo τ × Option τ :=
  if size = 0 then (f, none) else ({ f with used := f.used + size }, f.consumer)

/-! ## What the locked sections do -/

/-- The size that `pr_fifo_read_prepare` returns. -/
def readGrant (f : PrFifo τ) (n : Nat) : Nat := min (min n f.used) (f.size - f.rptr)

/-- The size that `pr_fifo_write_prepare` returns. -/
def writeGrant (f : PrFifo τ) (n : Nat) : Nat := min (min n f.free) (f.size - f.wptr)

theorem readGrant_le_used (f : PrFifo τ) (n : Nat) : readGrant f n ≤ f.used := by
  unfold readGrant; omega

theorem writeGrant_le_free (f : PrFifo τ) (n : Nat) : writeGrant f n ≤ f.free := by
  unfold writeGrant; omega

theorem readGrant_fits {f : PrFifo τ} (h : f.rptr ≤ f.size) (n : Nat) :
    f.rptr + readGrant f n ≤ f.size := by
  unfold readGrant; omega

theorem writeGrant_fits {f : PrFifo τ} (h : f.wptr ≤ f.size) (n : Nat) :
    f.wptr + writeGrant f n ≤ f.size := by
  unfold writeGrant; omega

/-- When the pointer is inside the buffer, `pr_fifo_read_prepare` grants
`readGrant` bytes at `rptr`, takes them from `used` and moves `rptr` past
them. -/
theorem prFifoReadPrepare_eq {f : PrFifo τ} (h : f.rptr < f.size ∨ f.size = 0) (n : Nat) :
    prFifoReadPrepare f n = (readGrant f n, f.rptr,
      { f with
        used := f.used - readGrant f n
        rptr := if f.rptr + readGrant f n = f.size then 0 else f.rptr + readGrant f n }) := by
  have h1 : (if f.used < n then f.used else n) = min n f.used := by
    split <;> omega
  have h2 : (if f.size - f.rptr < min n f.used then f.size - f.rptr else min n f.used) =
      readGrant f n := by
    unfold readGrant; split <;> omega
  simp only [prFifoReadPrepare, h1, h2]
  split
  · rfl
  · next hz =>
    have hz : readGrant f n = 0 := by omega
    cases f
    simp only [hz, Nat.sub_zero, Nat.add_zero, Prod.mk.injEq, PrFifo.mk.injEq, true_and, and_true]
    split
    · simp only at h; omega
    · rfl

theorem prFifoWritePrepare_eq {f : PrFifo τ} (h : f.wptr < f.size ∨ f.size = 0) (n : Nat) :
    prFifoWritePrepare f n = (writeGrant f n, f.wptr,
      { f with
        free := f.free - writeGrant f n
        wptr := if f.wptr + writeGrant f n = f.size then 0 else f.wptr + writeGrant f n }) := by
  have h1 : (if f.free < n then f.free else n) = min n f.free := by
    split <;> omega
  have h2 : (if f.size - f.wptr < min n f.free then f.size - f.wptr else min n f.free) =
      writeGrant f n := by
    unfold writeGrant; split <;> omega
  simp only [prFifoWritePrepare, h1, h2]
  split
  · rfl
  · next hz =>
    have hz : writeGrant f n = 0 := by omega
    cases f
    simp only [hz, Nat.sub_zero, Nat.add_zero, Prod.mk.injEq, PrFifo.mk.injEq, true_and, and_true]
    split
    · simp only at h; omega
    · rfl

/-- `pr_fifo_read_done` adds to `free`, also for the size 0 that it returns
early on. -/
theorem prFifoReadDone_fst (f : PrFifo τ) (k : Nat) :
    (prFifoReadDone f k).1 = { f with free := f.free + k } := by
  unfold prFifoReadDone
  split
  · next h => subst h; rfl
  · rfl

theorem prFifoWriteDone_fst (f : PrFifo τ) (k : Nat) :
    (prFifoWriteDone f k).1 = { f with used := f.used + k } := by
  unfold prFifoWriteDone
  split
  · next h => subst h; rfl
  · rfl

end Picore.Fifo
