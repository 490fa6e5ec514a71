import Picore.Fifo.Basic
import Picore.Lib.Transition

/-!
# Zero-copy transfers through a FIFO

One producer and one consumer share a FIFO through the prepare/done interface
of `fifo.h`. `prepare` moves a pointer and only `done` releases the counter of
the other side, so between the two calls `used` and `free` do not add up to
`size`: the difference is the open reservations.

The steps of the system are the locked sections of the four functions and the
copies between them, in any order that each side can issue them.

Results:
1. `Inv`, `inv_step`, `reachable_inv`: the ring invariant. Both pointers, both
   counters and both open reservations are determined by two stream positions,
   the number of committed bytes and the number of released bytes.
2. `zero_copy_correct`: what the consumer loads is a prefix of what the producer
   stored, reserved ranges are inside the buffer and never overlap live data,
   and the counters account for every byte.
-/

namespace Picore.Fifo.ZeroCopy

open Memory Ring Transition

variable {τ : Type}

/-! ## The system -/

/-- What one side holds between its prepare and its done. -/
inductive Reservation
  /-- no call in progress -/
  | closed
  /-- prepare returned the offset `pos` and the size `count` -/
  | prepared (pos count : Nat)
  /-- the bytes have been copied, done is still to be called -/
  | copied (pos count : Nat)

def Reservation.count : Reservation → Nat
  | .closed => 0
  | .prepared _ k => k
  | .copied _ k => k

/-- The number of reserved bytes that have been copied. -/
def Reservation.moved : Reservation → Nat
  | .copied _ k => k
  | _ => 0

/-- The reserved range is the one from offset `p` on, inside a buffer of `size`
bytes. -/
def Reservation.At (p size : Nat) : Reservation → Prop
  | .closed => True
  | .prepared pos k => pos = p ∧ pos + k ≤ size
  | .copied pos k => pos = p ∧ pos + k ≤ size

/-- The reserved range lies inside a buffer of `size` bytes. -/
def Reservation.Inside (size : Nat) : Reservation → Prop
  | .closed => True
  | .prepared pos k => pos + k ≤ size
  | .copied pos k => pos + k ≤ size

/-- The reserved range covers the offset `i` of the buffer. -/
def Reservation.Covers (i : Nat) : Reservation → Prop
  | .closed => False
  | .prepared pos k => pos ≤ i ∧ i < pos + k
  | .copied pos k => pos ≤ i ∧ i < pos + k

/-- The FIFO, the state of both sides, and the bytes stored and loaded so
far. -/
structure Sys (τ : Type) where
  fifo : PrFifo τ
  producer : Reservation
  consumer : Reservation
  stored : List UInt8
  loaded : List UInt8

/-- The steps of both sides: the two locked sections, and the copy that the application makes
between them. -/
inductive Act
  | writePrepare (n : Nat)
  | store (data : List UInt8)
  | writeDone
  | readPrepare (n : Nat)
  | load
  | readDone

/-- One step. A side that is not at the right point of its protocol has no
step, and the producer stores exactly the bytes it reserved. -/
def step (s : Sys τ) : Act → Option (Sys τ)
  | .writePrepare n =>
    match s.producer with
    | .closed =>
      let (k, pos, fifo) := prFifoWritePrepare s.fifo n
      some { s with fifo := fifo, producer := .prepared pos k }
    | _ => none
  | .store data =>
    match s.producer with
    | .prepared pos k =>
      if data.length = k then
        let fifo := { s.fifo with buffer := Memory.store s.fifo.buffer pos data }
        some { s with fifo := fifo, producer := .copied pos k, stored := s.stored ++ data }
      else none
    | _ => none
  | .writeDone =>
    match s.producer with
    | .copied _ k => some { s with fifo := (prFifoWriteDone s.fifo k).1, producer := .closed }
    | _ => none
  | .readPrepare n =>
    match s.consumer with
    | .closed =>
      let (k, pos, fifo) := prFifoReadPrepare s.fifo n
      some { s with fifo := fifo, consumer := .prepared pos k }
    | _ => none
  | .load =>
    match s.consumer with
    | .prepared pos k =>
      some { s with consumer := .copied pos k
                    loaded := s.loaded ++ Memory.load s.fifo.buffer pos k }
    | _ => none
  | .readDone =>
    match s.consumer with
    | .copied _ k => some { s with fifo := (prFifoReadDone s.fifo k).1, consumer := .closed }
    | _ => none

/-- A freshly initialised FIFO of `size` bytes, whatever `malloc` returned and
whatever tasks are attached to it. -/
def Fresh (size : Nat) (s : Sys τ) : Prop :=
  ∃ mem consumer producer,
    s = { fifo := prFifoProducerSet (prFifoConsumerSet (prFifoInit mem size) consumer) producer
          producer := .closed, consumer := .closed, stored := [], loaded := [] }

/-- The system of one producer and one consumer on a FIFO of `size` bytes. -/
def zeroCopy (τ : Type) (size : Nat) : Lts (Sys τ) Act :=
  .ofFun (Fresh size) step

/-! ## 1. The ring invariant -/

/-- `C` bytes have been committed by `write_done` and `D` released by
`read_done`. The live window of the stream goes from the first byte that is not
released to the last byte stored. -/
structure Inv (size C D : Nat) (s : Sys τ) : Prop where
  fixed : s.fifo.size = size
  wrote : s.stored.length = C + s.producer.moved
  readBack : s.loaded.length = D + s.consumer.moved
  wptr : s.fifo.wptr = (C + s.producer.count) % size
  rptr : s.fifo.rptr = (D + s.consumer.count) % size
  unread : C = D + s.consumer.count + s.fifo.used
  total : s.fifo.used + s.fifo.free + s.consumer.count + s.producer.count = size
  writeAt : s.producer.At (C % size) size
  readAt : s.consumer.At (D % size) size
  live : Holds s.fifo.buffer size s.stored D s.stored.length
  inOrder : s.loaded <+: s.stored
  degenerate : size = 0 → C = 0

theorem Inv.rptr_ok {size C D : Nat} {s : Sys τ} (h : Inv size C D s) :
    s.fifo.rptr < s.fifo.size ∨ s.fifo.size = 0 := by
  rw [h.rptr, h.fixed]
  exact mod_lt_or_zero _ _

theorem Inv.wptr_ok {size C D : Nat} {s : Sys τ} (h : Inv size C D s) :
    s.fifo.wptr < s.fifo.size ∨ s.fifo.size = 0 := by
  rw [h.wptr, h.fixed]
  exact mod_lt_or_zero _ _

theorem Inv.wptr_le {size C D : Nat} {s : Sys τ} (h : Inv size C D s) :
    s.fifo.wptr ≤ s.fifo.size := by
  rw [h.wptr, h.fixed]
  refine mod_le_of_zero fun hsize => ?_
  -- In a FIFO of no bytes nothing is ever reserved or committed.
  have hC := h.degenerate hsize
  have htot := h.total
  omega

theorem Inv.rptr_le {size C D : Nat} {s : Sys τ} (h : Inv size C D s) :
    s.fifo.rptr ≤ s.fifo.size := by
  rw [h.rptr, h.fixed]
  refine mod_le_of_zero fun hsize => ?_
  have hC := h.degenerate hsize
  have hD := h.unread
  omega

theorem fresh_inv {size : Nat} {s : Sys τ} (h : Fresh size s) : Inv size 0 0 s := by
  obtain ⟨mem, consumer, producer, rfl⟩ := h
  refine ⟨rfl, rfl, rfl, ?_, ?_, rfl, ?_, trivial, trivial, ?_, List.prefix_rfl, fun _ => rfl⟩
  · simp [prFifoProducerSet, prFifoConsumerSet, prFifoInit, Reservation.count]
  · simp [prFifoProducerSet, prFifoConsumerSet, prFifoInit, Reservation.count]
  · simp [prFifoProducerSet, prFifoConsumerSet, prFifoInit, Reservation.count]
  · intro p _ hp
    exact absurd hp (Nat.not_lt_zero p)

/-- The pointer that a prepare has moved is the position after the
reservation. -/
theorem moved_pointer {size p k ptr : Nat} (hp : ptr = p % size) (hk : ptr + k ≤ size) :
    (if ptr + k = size then 0 else ptr + k) = (p + k) % size := by
  subst hp
  exact advance_eq hk

theorem inv_writePrepare {size C D : Nat} {s t : Sys τ} {n : Nat} (h : Inv size C D s)
    (hs : step s (.writePrepare n) = some t) : Inv size C D t := by
  have hfit := writeGrant_fits h.wptr_le n
  obtain ⟨fifo, producer, consumer, stored, loaded⟩ := s
  cases producer with
  | prepared | copied => cases hs
  | closed =>
    simp only [step, prFifoWritePrepare_eq h.wptr_ok, Option.some.injEq] at hs
    subst hs
    have hw : fifo.wptr = C % size := h.wptr
    have hle : writeGrant fifo n ≤ fifo.free := writeGrant_le_free fifo n
    have hsize : fifo.size = size := h.fixed
    have htot := h.total
    rw [hsize] at hfit
    refine ⟨hsize, h.wrote, h.readBack, ?_, h.rptr, h.unread, ?_, ⟨hw, hfit⟩, h.readAt, h.live,
      h.inOrder, h.degenerate⟩
    · rw [hsize]
      exact moved_pointer hw hfit
    · simp only [Reservation.count] at htot ⊢
      omega

theorem inv_readPrepare {size C D : Nat} {s t : Sys τ} {n : Nat} (h : Inv size C D s)
    (hs : step s (.readPrepare n) = some t) : Inv size C D t := by
  have hfit := readGrant_fits h.rptr_le n
  obtain ⟨fifo, producer, consumer, stored, loaded⟩ := s
  cases consumer with
  | prepared | copied => cases hs
  | closed =>
    simp only [step, prFifoReadPrepare_eq h.rptr_ok, Option.some.injEq] at hs
    subst hs
    have hr : fifo.rptr = D % size := h.rptr
    have hle : readGrant fifo n ≤ fifo.used := readGrant_le_used fifo n
    have hsize : fifo.size = size := h.fixed
    have htot := h.total
    have hun := h.unread
    rw [hsize] at hfit
    refine ⟨hsize, h.wrote, h.readBack, h.wptr, ?_, ?_, ?_, h.writeAt, ⟨hr, hfit⟩, h.live,
      h.inOrder, h.degenerate⟩
    · rw [hsize]
      exact moved_pointer hr hfit
    · simp only [Reservation.count] at hun ⊢
      omega
    · simp only [Reservation.count] at htot ⊢
      omega

/-- Storing at the write reservation extends the live window; the window never
exceeds the ring because the reservation was taken from `free`. -/
theorem inv_store {size C D : Nat} {s t : Sys τ} {data : List UInt8} (h : Inv size C D s)
    (hs : step s (.store data) = some t) : Inv size C D t := by
  obtain ⟨fifo, producer, consumer, stored, loaded⟩ := s
  cases producer with
  | closed | copied => cases hs
  | prepared pos k =>
    simp only [step, Option.ite_none_right_eq_some, Option.some.injEq] at hs
    obtain ⟨hk, rfl⟩ := hs
    obtain ⟨hpos, hfit⟩ : pos = C % size ∧ pos + k ≤ size := h.writeAt
    have hlen : stored.length = C := h.wrote
    have hun := h.unread
    have htot := h.total
    refine ⟨h.fixed, ?_, h.readBack, h.wptr, h.rptr, h.unread, h.total, h.writeAt, h.readAt, ?_,
      h.inOrder.trans (List.prefix_append _ _), h.degenerate⟩
    · simp only [List.length_append, Reservation.moved]
      omega
    · -- The bytes go behind the window, into cells that are neither used nor reserved.
      subst hpos hk
      rw [List.length_append]
      simp only [Reservation.count] at htot hun
      rw [← hlen] at hfit ⊢
      exact h.live.store hfit (by simp only; omega)

theorem inv_writeDone {size C D : Nat} {s t : Sys τ} (h : Inv size C D s)
    (hs : step s .writeDone = some t) : Inv size (C + s.producer.count) D t := by
  obtain ⟨fifo, producer, consumer, stored, loaded⟩ := s
  cases producer with
  | closed | prepared => cases hs
  | copied pos k =>
    simp only [step, prFifoWriteDone_fst, Option.some.injEq] at hs
    subst hs
    have hun := h.unread
    have htot := h.total
    refine ⟨h.fixed, h.wrote, h.readBack, h.wptr, h.rptr, ?_, ?_, trivial, h.readAt, h.live,
      h.inOrder, ?_⟩
    · simp only [Reservation.count] at hun ⊢
      omega
    · simp only [Reservation.count] at htot ⊢
      omega
    · intro h0
      have := h.degenerate h0
      simp only [Reservation.count] at htot ⊢
      omega

/-- What a load returns is the part of the stream that follows what was loaded
before. -/
theorem inv_load {size C D : Nat} {s t : Sys τ} (h : Inv size C D s)
    (hs : step s .load = some t) : Inv size C D t := by
  obtain ⟨fifo, producer, consumer, stored, loaded⟩ := s
  cases consumer with
  | closed | copied => cases hs
  | prepared pos k =>
    simp only [step, Option.some.injEq] at hs
    subst hs
    obtain ⟨hpos, hfit⟩ : pos = D % size ∧ pos + k ≤ size := h.readAt
    have hun : C = D + k + fifo.used := h.unread
    have hlen : loaded.length = D := h.readBack
    have hwrote := h.wrote
    refine ⟨h.fixed, h.wrote, ?_, h.wptr, h.rptr, h.unread, h.total, h.writeAt, h.readAt, h.live,
      ?_, h.degenerate⟩
    · simp [hlen, Reservation.moved]
    · -- The reservation starts where the bytes loaded so far end.
      have hload : Memory.load fifo.buffer pos k = (stored.drop D).take k := by
        subst hpos
        exact (h.live.mono (Nat.le_refl D) (by simp only at hwrote ⊢; omega)).load hfit
      have hprev : loaded = stored.take D := by
        rw [← hlen]
        exact List.prefix_iff_eq_take.mp h.inOrder
      simp only [hload, hprev]
      rw [← List.take_add]
      exact List.take_prefix _ _

theorem inv_readDone {size C D : Nat} {s t : Sys τ} (h : Inv size C D s)
    (hs : step s .readDone = some t) : Inv size C (D + s.consumer.count) t := by
  obtain ⟨fifo, producer, consumer, stored, loaded⟩ := s
  cases consumer with
  | closed | prepared => cases hs
  | copied pos k =>
    simp only [step, prFifoReadDone_fst, Option.some.injEq] at hs
    subst hs
    have hun := h.unread
    have htot := h.total
    refine ⟨h.fixed, h.wrote, h.readBack, h.wptr, h.rptr, ?_, ?_, h.writeAt, trivial,
      h.live.mono (Nat.le_add_right _ _) (Nat.le_refl _), h.inOrder, h.degenerate⟩
    · simp only [Reservation.count] at hun ⊢
      omega
    · simp only [Reservation.count] at htot ⊢
      omega

/-- Every step of either side keeps the ring invariant. -/
theorem inv_step {size : Nat} {s t : Sys τ} {a : Act} (h : ∃ C D, Inv size C D s)
    (hs : step s a = some t) : ∃ C D, Inv size C D t := by
  obtain ⟨C, D, h⟩ := h
  cases a with
  | writePrepare n => exact ⟨C, D, inv_writePrepare h hs⟩
  | store data => exact ⟨C, D, inv_store h hs⟩
  | writeDone => exact ⟨_, D, inv_writeDone h hs⟩
  | readPrepare n => exact ⟨C, D, inv_readPrepare h hs⟩
  | load => exact ⟨C, D, inv_load h hs⟩
  | readDone => exact ⟨C, _, inv_readDone h hs⟩

theorem reachable_inv {size : Nat} {s : Sys τ} (h : (zeroCopy τ size).Reachable s) :
    ∃ C D, Inv size C D s :=
  h.invariant (I := fun s => ∃ C D, Inv size C D s) (fun _ h0 => ⟨0, 0, fresh_inv h0⟩)
    (fun _ _ _ hi hs => inv_step hi hs)

/-! ## 2. Correctness of the transfers -/

/-- The consumer gets the producer's bytes in order, and all of them once the
FIFO is empty and nothing is reserved. -/
def InOrder (s : Sys τ) : Prop :=
  s.loaded <+: s.stored ∧
  (s.fifo.used = 0 → s.producer.count = 0 → s.consumer.count = 0 → s.loaded = s.stored)

/-- Reserved ranges are inside the buffer, and the write reservation overlaps
neither the read reservation nor a committed byte that is not yet reserved for
reading. -/
def Separated (size : Nat) (s : Sys τ) : Prop :=
  s.producer.Inside size ∧ s.consumer.Inside size ∧
  ∀ i, s.producer.Covers i →
    ¬ s.consumer.Covers i ∧ ∀ j, j < s.fifo.used → (s.fifo.rptr + j) % size ≠ i

/-- The counters and the reservations account for every byte of the buffer,
and both pointers are offsets into it. -/
def Accounted (size : Nat) (s : Sys τ) : Prop :=
  s.fifo.used + s.fifo.free + s.consumer.count + s.producer.count = size ∧
  (0 < size → s.fifo.rptr < size ∧ s.fifo.wptr < size)

theorem Reservation.At.inside {r : Reservation} {p size : Nat} (h : r.At p size) :
    r.Inside size := by
  cases r with
  | closed => trivial
  | prepared | copied => exact h.2

/-- A cell of a reservation holds a position of the stream. -/
theorem Reservation.At.position {r : Reservation} {p size i : Nat} (h : r.At (p % size) size)
    (hi : r.Covers i) : ∃ j, j < r.count ∧ i = (p + j) % size := by
  cases r with
  | closed => exact hi.elim
  | prepared pos k | copied pos k =>
    obtain ⟨rfl, hfit⟩ := h
    obtain ⟨hlo, hhi⟩ := hi
    refine ⟨i - p % size, by simp only [count]; omega, ?_⟩
    rw [← mod_add_of_fits hfit (by omega)]
    omega

theorem inv_inOrder {size C D : Nat} {s : Sys τ} (h : Inv size C D s) : InOrder s := by
  refine ⟨h.inOrder, fun hu hp hc => h.inOrder.eq_of_length ?_⟩
  have hw := h.wrote
  have hr := h.readBack
  have hun := h.unread
  have hm : ∀ r : Reservation, r.moved ≤ r.count := by
    intro r
    cases r <;> simp [Reservation.moved, Reservation.count]
  have := hm s.producer
  have := hm s.consumer
  omega

theorem inv_separated {size C D : Nat} {s : Sys τ} (h : Inv size C D s) : Separated size s := by
  refine ⟨h.writeAt.inside, h.readAt.inside, fun i hi => ?_⟩
  have hun := h.unread
  have htot := h.total
  obtain ⟨j, hj, rfl⟩ := h.writeAt.position hi
  constructor
  · intro hc
    obtain ⟨l, hl, he⟩ := h.readAt.position hc
    exact mod_ne_of_window (p := D + l) (q := C + j) (by omega) (by omega) he.symm
  · intro l hl he
    rw [h.rptr, Nat.mod_add_mod] at he
    exact mod_ne_of_window (p := D + s.consumer.count + l) (q := C + j) (by omega) (by omega) he

theorem inv_accounted {size C D : Nat} {s : Sys τ} (h : Inv size C D s) : Accounted size s := by
  refine ⟨h.total, fun hs => ⟨?_, ?_⟩⟩
  · rw [h.rptr]
    exact Nat.mod_lt _ hs
  · rw [h.wptr]
    exact Nat.mod_lt _ hs

/-- Zero-copy transfers are correct for every FIFO size, every sequence of request sizes and every
interleaving of the two sides. The invariant: `used`, `free` and what the two sides hold add up to
the size, and the pointers are positions in the stream, modulo the size. -/
theorem zero_copy_correct {size : Nat} {s : Sys τ} (h : (zeroCopy τ size).Reachable s) :
    InOrder s ∧ Separated size s ∧ Accounted size s := by
  obtain ⟨C, D, hi⟩ := reachable_inv h
  exact ⟨inv_inOrder hi, inv_separated hi, inv_accounted hi⟩

/-- An interleaving on a FIFO of three bytes in which the second write wraps
and both reservations are open at the end. -/
def wrappingRun : List Act :=
  [.writePrepare 2, .store [10, 11], .writeDone, .readPrepare 2, .load, .writePrepare 5,
    .readDone, .store [12], .writeDone, .writePrepare 5, .readPrepare 4, .store [13, 14]]

def freshThree : Sys Unit where
  fifo := prFifoProducerSet (prFifoConsumerSet (prFifoInit (fun _ => 0) 3) none) none
  producer := .closed
  consumer := .closed
  stored := []
  loaded := []

theorem zero_copy_correct_wrapping :
    ∃ s, exec step freshThree wrappingRun = some s ∧ s.loaded = [10, 11] ∧
      s.stored = [10, 11, 12, 13, 14] ∧ s.producer.count = 2 ∧ s.consumer.count = 1 ∧
      InOrder s ∧ Separated 3 s ∧ Accounted 3 s :=
  ⟨_, rfl, rfl, rfl, rfl, rfl,
    zero_copy_correct (Lts.reachable_exec (.init ⟨fun _ => 0, none, none, rfl⟩)
      (show exec step freshThree wrappingRun = some _ from rfl))⟩

end Picore.Fifo.ZeroCopy
