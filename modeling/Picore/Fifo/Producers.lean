import Mathlib.Algebra.BigOperators.Group.Finset.Basic
import Mathlib.Data.Fintype.Basic
import Picore.Fifo.ZeroCopy

/-!
# Several producers

Several contexts are inside `pr_fifo_write` at once. The spin lock makes each locked
section atomic, but not the whole of a round: `write_prepare` reserves the bytes,
`memcpy` stores them and `write_done` adds their number to `used`. It does not say which
bytes these are. If a context is done before another one that has reserved before it,
the bytes of the other are handed out in their place.

The steps are the two locked sections of a round and the copy between them, for each
context, and those of one consumer. The bytes of all reservations, in the order of these,
are a ghost variable, and so is the number of bytes handed out.

Results:
1. `Inv`, `inv_step`: the ring invariant.
2. `producers_in_order`: as long as `write_done` never goes past bytes that have not been
   stored, everything handed out has been. `producers_overtake`: a run in which it does.
-/

namespace Picore.Fifo.Producers

open Memory Ring Transition

variable {κ τ : Type}

/-! ## The system -/

/-- Where a context stands in `pr_fifo_write`. `rest` are the bytes from `data + done`
on. -/
inductive Writer
  /-- no call in progress -/
  | idle
  /-- at the start of a round of the loop -/
  | looping (rest : List UInt8)
  /-- `write_prepare` has returned `count` bytes at `pos`, and `start` bytes had been
  reserved before -/
  | reserved (rest : List UInt8) (pos count start : Nat)
  /-- the bytes have been copied -/
  | stored (rest : List UInt8) (pos count start : Nat)

def Writer.count : Writer → Nat
  | .idle => 0
  | .looping _ => 0
  | .reserved _ _ k _ => k
  | .stored _ _ k _ => k

/-- Where the bytes that have been reserved but not stored start. -/
def Writer.unstored : Writer → Option Nat
  | .reserved _ _ _ start => some start
  | _ => none

/-- The byte `p` has been reserved but not stored. -/
def Writer.Awaits (p : Nat) : Writer → Prop
  | .reserved _ _ k start => start ≤ p ∧ p < start + k
  | _ => False

/-- Where `write_prepare` leaves a context. The loop of `pr_fifo_write` ends when it
returns 0. -/
def Writer.granted (rest : List UInt8) (pos count start : Nat) : Writer :=
  if count = 0 then .idle else .reserved rest pos count start

/-- The FIFO and where the contexts and the consumer stand. `stream` are the bytes of all
reservations so far, in their order, `handed` is the number of those that `read_prepare`
has handed out, and `loaded` is what the consumer has found there. -/
structure Sys (κ τ : Type) where
  fifo : PrFifo τ
  writer : κ → Writer
  consumer : ZeroCopy.Reservation
  stream : List UInt8
  loaded : List UInt8
  handed : Nat

/-- The labels of the steps: a context calls `pr_fifo_write` and goes through a round of its loop in
three steps, and so does the one consumer with `read_prepare` and `read_done`. -/
inductive Act (κ : Type)
  | write (k : κ) (data : List UInt8)
  | writePrepare (k : κ)
  | store (k : κ)
  | writeDone (k : κ)
  | readPrepare (n : Nat)
  | load
  | readDone

section Steps

variable [DecidableEq κ]

def Sys.goes (s : Sys κ τ) (k : κ) (w : Writer) : Sys κ τ :=
  { s with writer := Function.update s.writer k w }

def step (s : Sys κ τ) : Act κ → Option (Sys κ τ)
  | .write k data =>
    match s.writer k with
    | .idle => some (s.goes k (if data = [] then .idle else .looping data))
    | _ => none
  | .writePrepare k =>
    match s.writer k with
    | .looping rest =>
      let (count, pos, fifo) := prFifoWritePrepare s.fifo rest.length
      let s' := { s with fifo := fifo, stream := s.stream ++ rest.take count }
      some (s'.goes k (.granted rest pos count s.stream.length))
    | _ => none
  | .store k =>
    match s.writer k with
    | .reserved rest pos count start =>
      let fifo := { s.fifo with buffer := Memory.store s.fifo.buffer pos (rest.take count) }
      some ({ s with fifo := fifo }.goes k (.stored rest pos count start))
    | _ => none
  | .writeDone k =>
    match s.writer k with
    | .stored rest _ count _ =>
      some ({ s with fifo := (prFifoWriteDone s.fifo count).1 }.goes k (.looping (rest.drop count)))
    | _ => none
  | .readPrepare n =>
    match s.consumer with
    | .closed =>
      let (count, pos, fifo) := prFifoReadPrepare s.fifo n
      some { s with fifo := fifo, consumer := .prepared pos count, handed := s.handed + count }
    | _ => none
  | .load =>
    match s.consumer with
    | .prepared pos count =>
      some { s with consumer := .copied pos count
                    loaded := s.loaded ++ Memory.load s.fifo.buffer pos count }
    | _ => none
  | .readDone =>
    match s.consumer with
    | .copied _ count =>
      some { s with fifo := (prFifoReadDone s.fifo count).1, consumer := .closed }
    | _ => none

end Steps

/-- A freshly initialised FIFO of `size` bytes, whatever `malloc` returned and whatever
tasks are attached to it. -/
def Fresh (size : Nat) (s : Sys κ τ) : Prop :=
  ∃ mem consumer producer,
    s = { fifo := prFifoProducerSet (prFifoConsumerSet (prFifoInit mem size) consumer) producer
          writer := fun _ => .idle, consumer := .closed, stream := [], loaded := [], handed := 0 }

/-- The contexts `κ` and one consumer on a FIFO of `size` bytes. -/
def producers (κ τ : Type) [DecidableEq κ] (size : Nat) : Lts (Sys κ τ) (Act κ) :=
  .ofFun (Fresh size) step

/-- The bytes that the consumer gets have been stored, in the order in which they were
reserved, and in the end it has all of them. -/
structure Delivered (s : Sys κ τ) : Prop where
  stored : ∀ k, ∀ start ∈ (s.writer k).unstored, s.handed ≤ start
  reserved : s.handed ≤ s.stream.length
  inOrder : s.loaded <+: s.stream
  complete : s.fifo.used = 0 → (∀ k, (s.writer k).count = 0) → s.consumer.count = 0 →
    s.loaded = s.stream

/-- All bytes that have been handed out, or can be, have been stored. -/
def Covered (s : Sys κ τ) : Prop :=
  ∀ k, ∀ start ∈ (s.writer k).unstored, s.handed + s.fifo.used ≤ start

/-- `write_done` adds no more bytes to those handed out and to `used` than have been
stored from the first one on. -/
def KeepsOrder (s : Sys κ τ) : Act κ → Prop
  | .writeDone k => ∀ k', ∀ start ∈ (s.writer k').unstored,
      s.handed + s.fifo.used + (s.writer k).count ≤ start
  | _ => True

/-! ## 1. The ring invariant -/

/-- A reservation that has not been stored yet is in the buffer where the bytes of the
stream belong. -/
structure Writer.Fits (size : Nat) (stream rest : List UInt8) (pos count start : Nat) : Prop where
  place : pos = start % size
  fit : pos + count ≤ size
  le : count ≤ rest.length
  within : start + count ≤ stream.length
  bytes : (stream.drop start).take count = rest.take count

variable [Fintype κ]

/-- The number of bytes that are reserved and not done. -/
def Sys.opened (s : Sys κ τ) : Nat := ∑ k, (s.writer k).count

/-- The ring invariant, when `D` bytes have been released by `read_done`. Positions count the bytes
of all reservations, so the pointers are positions modulo `size`, and a cell holds its byte from
when it is stored until it is released, unless a context is still to store it. -/
structure Inv (size D : Nat) (s : Sys κ τ) : Prop where
  fixed : s.fifo.size = size
  wptr : s.fifo.wptr = s.stream.length % size
  rptr : s.fifo.rptr = s.handed % size
  total : s.fifo.used + s.fifo.free + s.consumer.count + s.opened = size
  unread : s.stream.length = s.handed + s.fifo.used + s.opened
  handed : s.handed = D + s.consumer.count
  readBack : s.loaded.length = D + s.consumer.moved
  readAt : s.consumer.At (D % size) size
  fits : ∀ k rest pos count start, s.writer k = .reserved rest pos count start →
    Writer.Fits size s.stream rest pos count start
  live : ∀ p, D ≤ p → p < s.stream.length → (∀ k, ¬ (s.writer k).Awaits p) →
    s.stream[p]? = some (s.fifo.buffer (p % size))
  covered : Covered s
  inOrder : s.loaded <+: s.stream
  degenerate : size = 0 → s.stream = []

variable [DecidableEq κ]

theorem sum_update (f : κ → Writer) (k : κ) (w : Writer) :
    ∑ i, (Function.update f k w i).count + (f k).count = ∑ i, (f i).count + w.count := by
  have h1 : ∑ i ∈ Finset.univ.erase k, (Function.update f k w i).count =
      ∑ i ∈ Finset.univ.erase k, (f i).count :=
    Finset.sum_congr rfl fun i hi => by
      rw [Function.update_of_ne (Finset.ne_of_mem_erase hi)]
  rw [← Finset.add_sum_erase _ _ (Finset.mem_univ k), h1, Function.update_self,
    ← Finset.add_sum_erase (a := k) Finset.univ (fun i => (f i).count) (Finset.mem_univ k)]
  omega

/-- What the reservation of one context adds to the bytes that are open. -/
theorem opened_goes (s : Sys κ τ) (k : κ) (w : Writer) :
    (s.goes k w).opened + (s.writer k).count = s.opened + w.count :=
  sum_update s.writer k w

omit [DecidableEq κ] in
theorem Inv.wptr_ok {size D : Nat} {s : Sys κ τ} (h : Inv size D s) :
    s.fifo.wptr < s.fifo.size ∨ s.fifo.size = 0 := by
  rw [h.wptr, h.fixed]
  exact mod_lt_or_zero _ _

omit [DecidableEq κ] in
theorem Inv.rptr_ok {size D : Nat} {s : Sys κ τ} (h : Inv size D s) :
    s.fifo.rptr < s.fifo.size ∨ s.fifo.size = 0 := by
  rw [h.rptr, h.fixed]
  exact mod_lt_or_zero _ _

omit [DecidableEq κ] in
theorem Inv.wptr_le {size D : Nat} {s : Sys κ τ} (h : Inv size D s) :
    s.fifo.wptr ≤ s.fifo.size := by
  rw [h.wptr, h.fixed]
  -- In a FIFO of no bytes nothing is ever reserved.
  exact mod_le_of_zero fun hsize => by rw [h.degenerate hsize, List.length_nil]

omit [DecidableEq κ] in
theorem Inv.rptr_le {size D : Nat} {s : Sys κ τ} (h : Inv size D s) :
    s.fifo.rptr ≤ s.fifo.size := by
  rw [h.rptr, h.fixed]
  refine mod_le_of_zero fun hsize => ?_
  have hun := h.unread
  rw [h.degenerate hsize, List.length_nil] at hun
  omega

omit [DecidableEq κ] in
theorem fresh_inv {size : Nat} {s : Sys κ τ} (h : Fresh size s) : Inv size 0 s := by
  obtain ⟨mem, consumer, producer, rfl⟩ := h
  have hopened : ∑ _k : κ, Writer.idle.count = 0 := Finset.sum_const_zero
  refine ⟨rfl, ?_, ?_, ?_, ?_, rfl, rfl, trivial, ?_, ?_, ?_, List.prefix_rfl, fun _ => rfl⟩
  · exact (Nat.zero_mod size).symm
  · exact (Nat.zero_mod size).symm
  · show 0 + size + 0 + ∑ _k : κ, Writer.idle.count = size
    rw [hopened, Nat.zero_add]
    rfl
  · show 0 = 0 + 0 + ∑ _k : κ, Writer.idle.count
    rw [hopened]
  · exact fun k rest pos count start hk => by cases hk
  · exact fun p _ hp => absurd hp (Nat.not_lt_zero p)
  · exact fun k start hk => by cases hk

/-! ### One context goes on -/

omit [Fintype κ] in
theorem writer_self (s : Sys κ τ) (k : κ) (w : Writer) : (s.goes k w).writer k = w :=
  Function.update_self _ _ _

omit [Fintype κ] in
theorem writer_ne (s : Sys κ τ) {k k' : κ} (w : Writer) (h : k' ≠ k) :
    (s.goes k w).writer k' = s.writer k' :=
  Function.update_of_ne h _ _

omit [Fintype κ] in
theorem reserved_of_goes {s : Sys κ τ} {k k' : κ} {w : Writer} {rest : List UInt8}
    {pos count start : Nat} (h : (s.goes k w).writer k' = .reserved rest pos count start) :
    w = .reserved rest pos count start ∨ s.writer k' = .reserved rest pos count start := by
  by_cases he : k' = k
  · rw [he, writer_self] at h
    exact .inl h
  · rw [writer_ne s w he] at h
    exact .inr h

omit [Fintype κ] in
theorem unstored_of_goes {s : Sys κ τ} {k k' : κ} {w : Writer} {start : Nat}
    (h : start ∈ ((s.goes k w).writer k').unstored) :
    start ∈ w.unstored ∨ start ∈ (s.writer k').unstored := by
  by_cases he : k' = k
  · rw [he, writer_self] at h
    exact .inl h
  · rw [writer_ne s w he] at h
    exact .inr h

omit [Fintype κ] in
theorem not_awaits_of_goes {s : Sys κ τ} {k : κ} {w : Writer} {p : Nat}
    (h : ∀ k', ¬ ((s.goes k w).writer k').Awaits p) (hk : ¬ (s.writer k).Awaits p) (k' : κ) :
    ¬ (s.writer k').Awaits p := by
  by_cases he : k' = k
  · rw [he]
    exact hk
  · rw [← writer_ne s w he]
    exact h k'

/-- A context that has nothing to store, before and after, changes the counters only. -/
theorem goes_inv {size D : Nat} {s : Sys κ τ} (h : Inv size D s) {k : κ} {w : Writer}
    {used : Nat} (hk : ∀ p, ¬ (s.writer k).Awaits p) (hw : w.unstored = none)
    (hused : used + w.count = s.fifo.used + (s.writer k).count)
    (hcovered : ∀ k', ∀ start ∈ (s.writer k').unstored, s.handed + used ≤ start) :
    Inv size D ({ s with fifo := { s.fifo with used := used } }.goes k w) := by
  let s' : Sys κ τ := { s with fifo := { s.fifo with used := used } }
  have hopened : (s'.goes k w).opened + (s.writer k).count = s.opened + w.count :=
    opened_goes s' k w
  have htotal := h.total
  have hunread := h.unread
  refine ⟨h.fixed, h.wptr, h.rptr, ?_, ?_, h.handed, h.readBack, h.readAt, ?_, ?_, ?_, h.inOrder,
    h.degenerate⟩
  · show used + s.fifo.free + s.consumer.count + (s'.goes k w).opened = size
    omega
  · show s.stream.length = s.handed + used + (s'.goes k w).opened
    omega
  · intro k' rest pos count start hk'
    rcases reserved_of_goes hk' with rfl | h1
    · cases hw
    · exact h.fits k' rest pos count start h1
  · exact fun p hp hp' hnot => h.live p hp hp' (not_awaits_of_goes hnot (hk p))
  · intro k' start hk'
    rcases unstored_of_goes hk' with h1 | h1
    · rw [hw] at h1
      cases h1
    · exact hcovered k' start h1

/-! ### Steps -/

theorem granted_count (rest : List UInt8) (pos count start : Nat) :
    (Writer.granted rest pos count start).count = count := by
  unfold Writer.granted
  split
  · exact (‹count = 0›).symm
  · rfl

theorem granted_unstored {rest : List UInt8} {pos count start p : Nat}
    (h : p ∈ (Writer.granted rest pos count start).unstored) : p = start := by
  unfold Writer.granted at h
  split at h
  · cases h
  · exact (Option.some.inj h).symm

theorem granted_reserved {rest rest' : List UInt8} {pos count start pos' count' start' : Nat}
    (h : Writer.granted rest pos count start = .reserved rest' pos' count' start') :
    rest' = rest ∧ pos' = pos ∧ count' = count ∧ start' = start := by
  unfold Writer.granted at h
  split at h
  · cases h
  · cases h
    exact ⟨rfl, rfl, rfl, rfl⟩

theorem granted_awaits {rest : List UInt8} {pos count start p : Nat} (h : start ≤ p)
    (h' : p < start + count) : (Writer.granted rest pos count start).Awaits p := by
  unfold Writer.granted
  rw [if_neg (by omega)]
  exact ⟨h, h'⟩

omit [DecidableEq κ] in
/-- A reservation stays where it is when the stream grows. -/
theorem Writer.Fits.append {size : Nat} {stream rest : List UInt8} {pos count start : Nat}
    (h : Writer.Fits size stream rest pos count start) (bytes : List UInt8) :
    Writer.Fits size (stream ++ bytes) rest pos count start := by
  have hwithin := h.within
  refine ⟨h.place, h.fit, h.le, ?_, ?_⟩
  · rw [List.length_append]
    exact Nat.le_add_right_of_le h.within
  · rw [List.drop_append_of_le_length (by omega),
      List.take_append_of_le_length (by rw [List.length_drop]; omega), h.bytes]

/-- `write_prepare` puts new bytes at the end of the stream. -/
theorem inv_writePrepare {size D : Nat} {s t : Sys κ τ} {k : κ} (h : Inv size D s)
    (hs : step s (.writePrepare k) = some t) : Inv size D t := by
  rw [step] at hs
  split at hs
  · rename_i rest hk
    simp only [prFifoWritePrepare_eq h.wptr_ok, Option.some.injEq] at hs
    have hfit := writeGrant_fits h.wptr_le rest.length
    have hfree := writeGrant_le_free s.fifo rest.length
    have hrest : writeGrant s.fifo rest.length ≤ rest.length := by
      unfold writeGrant
      omega
    generalize writeGrant s.fifo rest.length = count at *
    have hlen : (s.stream ++ rest.take count).length = s.stream.length + count := by
      rw [List.length_append, List.length_take_of_le hrest]
    have hopened : t.opened + (s.writer k).count = s.opened + _ := hs ▸ opened_goes _ k _
    rw [hk, granted_count] at hopened
    have hnone : (Writer.looping rest).count = 0 := rfl
    have htotal := h.total
    have hunread := h.unread
    rw [h.fixed] at hfit
    subst hs
    refine ⟨h.fixed, ?_, h.rptr, ?_, ?_, h.handed, h.readBack, h.readAt, ?_, ?_, ?_, ?_, ?_⟩
    · show (if s.fifo.wptr + count = s.fifo.size then 0 else s.fifo.wptr + count) =
        (s.stream ++ rest.take count).length % size
      rw [h.fixed, hlen]
      exact ZeroCopy.moved_pointer h.wptr hfit
    · show s.fifo.used + (s.fifo.free - count) + s.consumer.count + _ = size
      omega
    · show (s.stream ++ rest.take count).length = s.handed + s.fifo.used + _
      omega
    · intro k' rest' pos' count' start' hk'
      rcases reserved_of_goes hk' with h1 | h1
      · obtain ⟨rfl, rfl, rfl, rfl⟩ := granted_reserved h1
        refine ⟨h.wptr, hfit, hrest, Nat.le_of_eq hlen.symm, ?_⟩
        show ((s.stream ++ rest'.take count').drop s.stream.length).take count' = _
        rw [List.drop_left, List.take_take, Nat.min_self]
      · exact (h.fits k' rest' pos' count' start' h1).append _
    · intro p hp hp' hnot
      have hp' : p < (s.stream ++ rest.take count).length := hp'
      rcases Nat.lt_or_ge p s.stream.length with h1 | h1
      · show (s.stream ++ rest.take count)[p]? = _
        rw [List.getElem?_append_left h1]
        refine h.live p hp h1 (not_awaits_of_goes hnot ?_)
        rw [hk]
        exact not_false
      · refine absurd (granted_awaits h1 ?_) (writer_self _ k _ ▸ hnot k)
        omega
    · intro k' start hk'
      rcases unstored_of_goes hk' with h1 | h1
      · rw [granted_unstored h1]
        show s.handed + s.fifo.used ≤ s.stream.length
        omega
      · exact h.covered k' start h1
    · exact h.inOrder.trans (List.prefix_append _ _)
    · intro h0
      refine List.length_eq_zero_iff.mp ?_
      show (s.stream ++ rest.take count).length = 0
      rw [hlen, h.degenerate h0, List.length_nil]
      omega
  · cases hs

/-- `memcpy` puts the bytes of a reservation into their cells. -/
theorem inv_store {size D : Nat} {s t : Sys κ τ} {k : κ} (h : Inv size D s)
    (hs : step s (.store k) = some t) : Inv size D t := by
  rw [step] at hs
  split at hs
  · rename_i rest pos count start hk
    cases hs
    obtain ⟨rfl, hfit, hle, hwithin, hbytes⟩ := h.fits k rest pos count start hk
    have hstart : s.handed + s.fifo.used ≤ start := by
      refine h.covered k start ?_
      rw [hk]
      exact rfl
    have hlen : (rest.take count).length = count := List.length_take_of_le hle
    let s' : Sys κ τ := { s with fifo := { s.fifo with
      buffer := Memory.store s.fifo.buffer (start % size) (rest.take count) } }
    let w : Writer := .stored rest (start % size) count start
    have hopened : (s'.goes k w).opened + (s.writer k).count = s.opened + w.count :=
      opened_goes s' k w
    have hcount : (s.writer k).count = w.count := by
      rw [hk]
      rfl
    have hsame : (s'.goes k w).opened = s.opened := by omega
    have htotal := h.total
    have hunread := h.unread
    have hhanded := h.handed
    refine ⟨h.fixed, h.wptr, h.rptr, ?_, ?_, h.handed, h.readBack, h.readAt, ?_, ?_, ?_, h.inOrder,
      h.degenerate⟩
    · rw [hsame]
      exact h.total
    · rw [hsame]
      exact h.unread
    · intro k' rest' pos' count' start' hk'
      rcases reserved_of_goes hk' with h1 | h1
      · cases h1
      · exact h.fits k' rest' pos' count' start' h1
    · intro p hp hp' hnot
      have hp' : p < s.stream.length := hp'
      show s.stream[p]? =
        some (Memory.store s.fifo.buffer (start % size) (rest.take count) (p % size))
      by_cases hown : start ≤ p ∧ p < start + count
      · obtain ⟨j, rfl⟩ := Nat.exists_eq_add_of_le hown.1
        have hj : j < count := by omega
        rw [store_own (by rwa [hlen]) (by rwa [hlen]), ← List.getElem?_eq_getElem, ← hbytes,
          List.getElem?_take_of_lt hj, List.getElem?_drop]
      · rw [store_other (by rwa [hlen]) fun j hj => ?_]
        · refine h.live p hp hp' (not_awaits_of_goes hnot ?_)
          rw [hk]
          exact hown
        · -- The two positions are in the live window, which is no longer than the ring.
          rw [hlen] at hj
          exact @mod_ne_of_ne size D _ _ (by omega) (by omega) hp (by omega) (by omega)
    · intro k' start' hk'
      rcases unstored_of_goes hk' with h1 | h1
      · cases h1
      · exact h.covered k' start' h1
  · cases hs

theorem inv_writeDone {size D : Nat} {s t : Sys κ τ} {k : κ} (h : Inv size D s)
    (hs : step s (.writeDone k) = some t) (hok : KeepsOrder s (.writeDone k)) : Inv size D t := by
  rw [step] at hs
  split at hs
  · rename_i rest pos count start hk
    simp only [prFifoWriteDone_fst, Option.some.injEq] at hs
    have hcount : (s.writer k).count = count := by
      rw [hk]
      rfl
    subst hs
    refine goes_inv h (fun p => ?_) rfl ?_ fun k' start' hk' => ?_
    · rw [hk]
      exact not_false
    · rw [hcount]
      rfl
    · have h1 := hok k' start' hk'
      rw [hcount] at h1
      omega
  · cases hs

theorem inv_write {size D : Nat} {s t : Sys κ τ} {k : κ} {data : List UInt8} (h : Inv size D s)
    (hs : step s (.write k data) = some t) : Inv size D t := by
  rw [step] at hs
  split at hs
  · rename_i hk
    cases hs
    refine goes_inv h (fun p => ?_) ?_ ?_ h.covered
    · rw [hk]
      exact not_false
    · split
      · rfl
      · rfl
    · rw [hk]
      split
      · rfl
      · rfl
  · cases hs

theorem inv_readPrepare {size D : Nat} {s t : Sys κ τ} {n : Nat}
    (h : Inv size D s) (hs : step s (.readPrepare n) = some t) : Inv size D t := by
  rw [step] at hs
  split at hs
  · rename_i hclosed
    simp only [prFifoReadPrepare_eq h.rptr_ok, Option.some.injEq] at hs
    have hfit := readGrant_fits h.rptr_le n
    have hused := readGrant_le_used s.fifo n
    generalize readGrant s.fifo n = count at *
    have htotal := h.total
    have hunread := h.unread
    have hhanded := h.handed
    have hback := h.readBack
    rw [hclosed] at htotal hhanded hback
    simp only [ZeroCopy.Reservation.count, ZeroCopy.Reservation.moved, Nat.add_zero]
      at htotal hhanded hback
    rw [h.fixed] at hfit
    subst hs
    refine ⟨h.fixed, h.wptr, ?_, ?_, ?_, ?_, hback, ⟨?_, hfit⟩, h.fits, h.live, ?_, h.inOrder,
      h.degenerate⟩
    · show (if s.fifo.rptr + count = s.fifo.size then 0 else s.fifo.rptr + count) =
        (s.handed + count) % size
      rw [h.fixed]
      exact ZeroCopy.moved_pointer h.rptr hfit
    · show s.fifo.used - count + s.fifo.free + count + s.opened = size
      omega
    · show s.stream.length = s.handed + count + (s.fifo.used - count) + s.opened
      omega
    · show s.handed + count = D + count
      rw [hhanded]
    · rw [h.rptr, hhanded]
    · intro k start hk
      have h1 := h.covered k start hk
      show s.handed + count + (s.fifo.used - count) ≤ start
      omega
  · cases hs

/-- The copy of the consumer finds the bytes that have been handed out to it, since all of them have
been stored. -/
theorem inv_load {size D : Nat} {s t : Sys κ τ} (h : Inv size D s)
    (hs : step s .load = some t) : Inv size D t := by
  rw [step] at hs
  split at hs
  · rename_i pos count hprepared
    cases hs
    have hreadAt := h.readAt
    have hhanded := h.handed
    have hback := h.readBack
    have hunread := h.unread
    have htotal := h.total
    rw [hprepared] at hreadAt hhanded hback htotal
    obtain ⟨rfl, hfit⟩ := hreadAt
    simp only [ZeroCopy.Reservation.count, ZeroCopy.Reservation.moved, Nat.add_zero]
      at hhanded hback htotal
    have hholds : Holds s.fifo.buffer size s.stream D (D + count) := by
      intro p hp hp'
      refine h.live p hp (by omega) fun k hawaits => ?_
      -- What has not been stored comes behind what has been handed out.
      cases hk : s.writer k with
      | idle | looping | stored =>
        rw [hk] at hawaits
        exact hawaits
      | reserved rest pos' count' start =>
        rw [hk] at hawaits
        have h1 := h.covered k start (by rw [hk]; exact rfl)
        have h2 : start ≤ p := hawaits.1
        omega
    refine ⟨h.fixed, h.wptr, h.rptr, ?_, h.unread, hhanded, ?_, ⟨rfl, hfit⟩, h.fits, h.live,
      h.covered, ?_, h.degenerate⟩
    · exact htotal
    · show (s.loaded ++ Memory.load s.fifo.buffer (D % size) count).length = D + count
      rw [List.length_append, length_load, hback]
    · have hprev : s.loaded = s.stream.take D := by
        rw [← hback]
        exact List.prefix_iff_eq_take.mp h.inOrder
      show s.loaded ++ Memory.load s.fifo.buffer (D % size) count <+: s.stream
      rw [hholds.load hfit, hprev, ← List.take_add]
      exact List.take_prefix _ _
  · cases hs

theorem inv_readDone {size D : Nat} {s t : Sys κ τ} (h : Inv size D s)
    (hs : step s .readDone = some t) : Inv size (D + s.consumer.count) t := by
  rw [step] at hs
  split at hs
  · rename_i pos count hcopied
    simp only [prFifoReadDone_fst, Option.some.injEq] at hs
    have htotal := h.total
    have hhanded := h.handed
    have hback := h.readBack
    rw [hcopied] at htotal hhanded hback ⊢
    simp only [ZeroCopy.Reservation.count, ZeroCopy.Reservation.moved] at htotal hhanded hback ⊢
    subst hs
    refine ⟨h.fixed, h.wptr, h.rptr, ?_, h.unread, hhanded, hback, trivial, h.fits, ?_, h.covered,
      h.inOrder, h.degenerate⟩
    · show s.fifo.used + (s.fifo.free + count) + 0 + s.opened = size
      omega
    · exact fun p hp => h.live p (Nat.le_trans (Nat.le_add_right D count) hp)
  · cases hs

/-- Every step that keeps the order keeps the ring invariant. -/
theorem inv_step {size : Nat} {s t : Sys κ τ} {a : Act κ} (h : ∃ D, Inv size D s)
    (hs : step s a = some t) (hok : KeepsOrder s a) : ∃ D, Inv size D t := by
  obtain ⟨D, h⟩ := h
  cases a with
  | write k data => exact ⟨D, inv_write h hs⟩
  | writePrepare k => exact ⟨D, inv_writePrepare h hs⟩
  | store k => exact ⟨D, inv_store h hs⟩
  | writeDone k => exact ⟨D, inv_writeDone h hs hok⟩
  | readPrepare n => exact ⟨D, inv_readPrepare h hs⟩
  | load => exact ⟨D, inv_load h hs⟩
  | readDone => exact ⟨_, inv_readDone h hs⟩

/-! ## 2. Main result -/

omit [DecidableEq κ] in
theorem Inv.delivered {size D : Nat} {s : Sys κ τ} (h : Inv size D s) : Delivered s := by
  have hunread := h.unread
  refine ⟨fun k start hk => ?_, by omega, h.inOrder, fun hused hwriters hconsumer => ?_⟩
  · exact Nat.le_of_add_right_le (h.covered k start hk)
  · have hopened : s.opened = 0 := Finset.sum_eq_zero fun k _ => hwriters k
    have hhanded := h.handed
    have hback := h.readBack
    have hmoved : s.consumer.moved = 0 := by
      cases hc : s.consumer with
      | closed | prepared => rfl
      | copied pos count =>
        rw [hc] at hconsumer
        exact hconsumer
    exact h.inOrder.eq_of_length (by omega)

/-- A `write_done` that does not keep the order uncovers bytes that have not been
stored. -/
theorem covered_iff {size D : Nat} {s t : Sys κ τ} {a : Act κ} (h : Inv size D s)
    (hs : step s a = some t) : Covered t ↔ KeepsOrder s a := by
  refine ⟨fun hcovered => ?_, fun hok => ?_⟩
  · cases a with
    | writeDone k =>
      rw [step] at hs
      split at hs
      · rename_i rest pos count start hk
        simp only [prFifoWriteDone_fst, Option.some.injEq] at hs
        subst hs
        intro k' start' hk'
        have hne : k' ≠ k := by
          rintro rfl
          rw [hk] at hk'
          cases hk'
        have h1 := hcovered k' start' (by rw [writer_ne _ _ hne]; exact hk')
        rw [hk]
        show s.handed + s.fifo.used + count ≤ start'
        rw [Nat.add_assoc]
        exact h1
      · cases hs
    | _ => trivial
  · obtain ⟨D', h'⟩ := inv_step ⟨D, h⟩ hs hok
    exact h'.covered

/-- As long as every `write_done` keeps the order, what the consumer gets are the bytes
of the reservations, in order, and all of them have been stored. The first `write_done`
that does not lets `read_prepare` hand out bytes that have not been stored. -/
theorem producers_in_order {size : Nat} {s : Sys κ τ}
    (h : ((producers κ τ size).guard KeepsOrder).Reachable s) :
    Delivered s ∧ ∀ a t, (producers κ τ size).step s a t → (Covered t ↔ KeepsOrder s a) := by
  obtain ⟨D, hinv⟩ : ∃ D, Inv size D s := by
    refine h.invariant (I := fun s => ∃ D, Inv size D s) ?_ ?_
    · exact fun s h0 => ⟨0, fresh_inv h0⟩
    · exact fun s a t h1 hs => inv_step h1 hs.1 hs.2
  exact ⟨hinv.delivered, fun a t hs => covered_iff hinv hs⟩

namespace ProducersLemmas

def freshFour : Sys Bool Unit where
  fifo := prFifoProducerSet (prFifoConsumerSet (prFifoInit (fun _ => 0) 4) none) none
  writer _ := .idle
  consumer := .closed
  stream := []
  loaded := []
  handed := 0

theorem freshFour_fresh : Fresh 4 freshFour := ⟨fun _ => 0, none, none, rfl⟩

/-- Two contexts write two bytes each. Both have reserved their room, and only the second one has
stored its bytes. -/
def bothReserve : List (Act Bool) :=
  [.write false [1, 2], .writePrepare false, .write true [3, 4], .writePrepare true, .store true]

/-- The second context is done before the first one has stored its bytes, and the consumer takes two
bytes. -/
def overtakes : List (Act Bool) := bothReserve ++ [.writeDone true, .readPrepare 2, .load]

end ProducersLemmas

open ProducersLemmas in
theorem producers_in_order_two :
    ∃ s, ((producers Bool Unit 4).guard KeepsOrder).Reachable s ∧ s.loaded = [1, 2] ∧
      Delivered s ∧ ∀ a t, (producers Bool Unit 4).step s a t → (Covered t ↔ KeepsOrder s a) := by
  have hreach : ∃ s, ((producers Bool Unit 4).guard KeepsOrder).Reachable s ∧
      s.loaded = [1, 2] := by
    have h0 := Lts.Reachable.init (L := (producers Bool Unit 4).guard KeepsOrder) freshFour_fresh
    have h1 := h0.step ⟨(rfl : step _ (.write false [1, 2]) = some _), trivial⟩
    have h2 := h1.step ⟨(rfl : step _ (.writePrepare false) = some _), trivial⟩
    have h3 := h2.step ⟨(rfl : step _ (.write true [3, 4]) = some _), trivial⟩
    have h4 := h3.step ⟨(rfl : step _ (.writePrepare true) = some _), trivial⟩
    have h5 := h4.step ⟨(rfl : step _ (.store false) = some _), trivial⟩
    have h6 := h5.step ⟨(rfl : step _ (.writeDone false) = some _), ?_⟩
    · have h7 := h6.step ⟨(rfl : step _ (.readPrepare 2) = some _), trivial⟩
      exact ⟨_, h7.step ⟨(rfl : step _ .load = some _), trivial⟩, rfl⟩
    · intro k start hk
      cases k with
      | false => cases hk
      | true =>
        cases hk
        exact Nat.le_refl 2
  obtain ⟨s, hs, hloaded⟩ := hreach
  exact ⟨s, hs, hloaded, producers_in_order hs⟩

open ProducersLemmas in
/-- The consumer gets two bytes that the first context has not stored, in place of its
own. -/
theorem producers_overtake :
    ∃ s, (producers Bool Unit 4).Reachable s ∧ s.stream = [1, 2, 3, 4] ∧ s.loaded = [0, 0] ∧
      s.writer false = .reserved [1, 2] 0 2 0 ∧ s.handed = 2 ∧ ¬ Delivered s := by
  have hrun : exec step freshFour overtakes = some _ := rfl
  refine ⟨_, Lts.reachable_exec (.init freshFour_fresh) hrun, rfl, rfl, rfl, rfl, fun h => ?_⟩
  exact absurd (h.stored false 0 rfl) (by decide)

end Picore.Fifo.Producers
