import Picore.Fifo.Read

/-!
# The copying write and the questions (`pr_fifo_write`, `pr_fifo_available` and the like)

`pr_fifo_write` repeats prepare, copy and done until a round transfers nothing. Without
another context that is one round up to the end of the buffer, one from its beginning, and
one that finds nothing left.

Results:
1. `Quiet`: a FIFO without open reservations; `reachable_quiet`.
2. `Wrote`, `wrote_put`: what one round appends.
3. `prFifoWriteLoop_returns`: the loop ends and appends what fits.
4. `copies_reachable`: `pr_fifo_write` and `pr_fifo_read` are runs of transfers.
5. `fifo_copy_correct`: write, peek and the questions agree with the bytes in the FIFO.
-/

namespace Picore.Fifo

open Memory Ring Fuel Transition

variable {τ : Type}

def prFifoClear (f : PrFifo τ) : PrFifo τ :=
  { f with used := 0, free := f.size, rptr := 0, wptr := 0 }

def prFifoIsEmpty (f : PrFifo τ) : Bool := f.used == 0

def prFifoIsFull (f : PrFifo τ) : Bool := f.free == 0

def prFifoAvailable (f : PrFifo τ) : Nat := f.used

def prFifoFree (f : PrFifo τ) : Nat := f.free

/-- The FIFO, the count `done` and the tasks passed to `pr_task_exec` while `pr_fifo_write`
runs. -/
structure WriteState (τ : Type) where
  fifo : PrFifo τ
  done : Nat
  execs : List τ

/-- The body of the loop of `pr_fifo_write`, and the value of `transferred`. -/
def prFifoWriteRound (data : Mem UInt8) (size : Nat) (st : WriteState τ) : Nat × WriteState τ :=
  let (transferred, dst, fifo) := prFifoWritePrepare st.fifo (size - st.done)
  if transferred ≠ 0 then
    let buffer := store fifo.buffer dst (load data st.done transferred)
    let (fifo', task) := prFifoWriteDone { fifo with buffer := buffer } transferred
    (transferred,
      { fifo := fifo', done := st.done + transferred, execs := st.execs ++ task.toList })
  else (transferred, { st with fifo := fifo, done := st.done + transferred })

/-- The loop of `pr_fifo_write`. -/
def prFifoWriteLoop (data : Mem UInt8) (size : Nat) :
    Nat → WriteState τ → Outcome Empty (WriteState τ)
  | 0, _ => .error .timeout
  | fuel + 1, st =>
    let (transferred, st) := prFifoWriteRound data size st
    if transferred ≠ 0 then prFifoWriteLoop data size fuel st else .ok st

def prFifoWrite (f : PrFifo τ) (data : Mem UInt8) (size fuel : Nat) :
    Outcome Empty (WriteState τ) :=
  if size = 0 then .ok ⟨f, 0, []⟩ else prFifoWriteLoop data size fuel ⟨f, 0, []⟩

/-- What happens to a FIFO: the steps of the transfers, `pr_fifo_clear` between them, and
other tasks. -/
inductive FifoAct (τ : Type)
  | transfer (a : ZeroCopy.Act)
  | clear
  | tasks (consumer producer : Option τ)

def fifoStep (s : ZeroCopy.Sys τ) : FifoAct τ → Option (ZeroCopy.Sys τ)
  | .transfer a => ZeroCopy.step s a
  | .clear =>
    match s.producer, s.consumer with
    | .closed, .closed => some { s with fifo := prFifoClear s.fifo, stored := [], loaded := [] }
    | _, _ => none
  | .tasks consumer producer =>
    some { s with fifo := prFifoProducerSet (prFifoConsumerSet s.fifo consumer) producer }

/-- The runs of a FIFO of `size` bytes in which each done is for the size of its prepare.
`stored` and `loaded` are what has gone in and out since the last clear. -/
def fifo (τ : Type) (size : Nat) : Lts (ZeroCopy.Sys τ) (FifoAct τ) :=
  Lts.ofFun (ZeroCopy.Fresh size) fifoStep

/-! ## 1. Without reservations -/

/-- Without open reservations, the write pointer is behind the bytes in the FIFO, and the other
bytes of the buffer are free. -/
structure Quiet (f : PrFifo τ) : Prop extends Settled f where
  wptr : f.wptr = (f.rptr + f.used) % f.size
  total : f.used + f.free = f.size

theorem clear_fresh {size C D : Nat} {s : ZeroCopy.Sys τ} (h : ZeroCopy.Inv size C D s)
    (hp : s.producer = .closed) (hc : s.consumer = .closed) :
    ZeroCopy.Fresh size { s with fifo := prFifoClear s.fifo, stored := [], loaded := [] } := by
  obtain ⟨fifo, producer, consumer, stored, loaded⟩ := s
  obtain rfl : producer = .closed := hp
  obtain rfl : consumer = .closed := hc
  obtain rfl : fifo.size = size := h.fixed
  exact ⟨fifo.buffer, fifo.consumer, fifo.producer, rfl⟩

theorem reachable_inv {size : Nat} {s : ZeroCopy.Sys τ} (h : (fifo τ size).Reachable s) :
    ∃ C D, ZeroCopy.Inv size C D s := by
  refine h.invariant (I := fun s => ∃ C D, ZeroCopy.Inv size C D s) ?_ ?_
  · exact fun s hs => ⟨0, 0, ZeroCopy.fresh_inv hs⟩
  · intro s a t hs hstep
    cases a with
    | transfer a => exact ZeroCopy.inv_step hs hstep
    | clear =>
      obtain ⟨C, D, hinv⟩ := hs
      have hstep : fifoStep s .clear = some t := hstep
      simp only [fifoStep] at hstep
      split at hstep
      · next hp hc =>
        cases hstep
        exact ⟨0, 0, ZeroCopy.fresh_inv (clear_fresh hinv hp hc)⟩
      · cases hstep
    | tasks consumer producer =>
      obtain ⟨C, D, hinv⟩ := hs
      cases hstep
      exact ⟨C, D, hinv.fixed, hinv.wrote, hinv.readBack, hinv.wptr, hinv.rptr, hinv.unread,
        hinv.total, hinv.writeAt, hinv.readAt, hinv.live, hinv.inOrder, hinv.degenerate⟩

/-- Between the transfers, the FIFO holds what has gone in and not out. -/
theorem reachable_quiet {size : Nat} {s : ZeroCopy.Sys τ} (h : (fifo τ size).Reachable s)
    (hp : s.producer = .closed) (hc : s.consumer = .closed) :
    Quiet s.fifo ∧ s.fifo.size = size ∧ s.stored = s.loaded ++ queued s.fifo := by
  obtain ⟨C, D, hinv⟩ := reachable_inv h
  have htotal := hinv.total
  have hunread := hinv.unread
  have hwptr := hinv.wptr
  have hrptr := hinv.rptr
  have hwrote := hinv.wrote
  have hback := hinv.readBack
  rw [hp, hc] at htotal
  rw [hc] at hunread hrptr hback
  rw [hp] at hwptr hwrote
  simp only [ZeroCopy.Reservation.count, ZeroCopy.Reservation.moved, Nat.add_zero] at *
  have hsize : s.fifo.size = size := hinv.fixed
  refine ⟨⟨⟨hinv.rptr_ok, hinv.rptr_le, ?_⟩, ?_, ?_⟩, hsize, ?_⟩
  · rw [hsize, ← htotal]
    exact Nat.le_add_right _ _
  · rw [hwptr, hrptr, hsize, hunread, Nat.mod_add_mod]
  · rw [hsize, htotal]
  · have hlive := hinv.live
    rw [hwrote, hunread] at hlive
    have hrest : (s.stored.drop D).length = s.fifo.used := by
      rw [List.length_drop, hwrote, hunread, Nat.add_sub_cancel_left]
    calc s.stored
        = s.stored.take s.loaded.length ++ s.stored.drop D := by
          rw [hback, List.take_append_drop]
      _ = s.loaded ++ s.stored.drop D := by
          rw [← List.prefix_iff_eq_take.mp hinv.inOrder]
      _ = s.loaded ++ queued s.fifo := by
          rw [queued, hrptr, hsize, contents_mod, hlive.contents, ← hrest, List.take_length]

/-! ## 2. One round -/

/-- `f` after a round of a write has put `xs`. -/
def put (f : PrFifo τ) (xs : List UInt8) : PrFifo τ :=
  { f with
    buffer := store f.buffer f.wptr xs
    used := f.used + xs.length
    wptr := if f.wptr + xs.length = f.size then 0 else f.wptr + xs.length
    free := f.free - xs.length }

/-- `r` is `f` with `xs` written behind its bytes: nothing is held on either side, and size and
tasks are those of `f`. -/
structure Wrote (f : PrFifo τ) (xs : List UInt8) (r : PrFifo τ) : Prop where
  quiet : Quiet r
  queued : queued r = queued f ++ xs
  size : r.size = f.size
  consumer : r.consumer = f.consumer
  producer : r.producer = f.producer

theorem length_queued (f : PrFifo τ) : (queued f).length = f.used := length_contents ..

theorem Wrote.refl {f : PrFifo τ} (h : Quiet f) : Wrote f [] f :=
  ⟨h, (List.append_nil _).symm, rfl, rfl, rfl⟩

theorem Wrote.trans {f g r : PrFifo τ} {xs ys : List UInt8} (h : Wrote f xs g)
    (h' : Wrote g ys r) : Wrote f (xs ++ ys) r where
  quiet := h'.quiet
  queued := by rw [h'.queued, h.queued, List.append_assoc]
  size := h'.size.trans h.size
  consumer := h'.consumer.trans h.consumer
  producer := h'.producer.trans h.producer

theorem Wrote.free {f r : PrFifo τ} {xs : List UInt8} (hf : Quiet f) (h : Wrote f xs r) :
    r.free = f.free - xs.length := by
  have hlen : r.used = f.used + xs.length := by
    rw [← length_queued r, h.queued, List.length_append, length_queued]
  have htotal := hf.total
  have htotal' := h.quiet.total
  rw [h.size] at htotal'
  omega

theorem Quiet.wptr_ok {f : PrFifo τ} (h : Quiet f) : f.wptr < f.size ∨ f.size = 0 := by
  rw [h.wptr]
  exact mod_lt_or_zero _ _

theorem Quiet.wptr_le {f : PrFifo τ} (h : Quiet f) : f.wptr ≤ f.size := by
  rw [h.wptr]
  refine mod_le_of_zero fun hsize => ?_
  have hrptr := h.rptr_le
  have hused := h.used_le
  omega

theorem wrote_put {f : PrFifo τ} (h : Quiet f) {xs : List UInt8} (hfree : xs.length ≤ f.free)
    (hfit : f.wptr + xs.length ≤ f.size) : Wrote f xs (put f xs) := by
  have hwptr := h.wptr
  have htotal := h.total
  have hadvance : (put f xs).wptr = (f.rptr + (f.used + xs.length)) % f.size := by
    rw [← Nat.add_assoc]
    exact ZeroCopy.moved_pointer hwptr hfit
  have hused : f.used + xs.length ≤ f.size := by omega
  refine ⟨⟨⟨h.rptr_ok, h.rptr_le, hused⟩, hadvance, ?_⟩, ?_, rfl, rfl, rfl⟩
  · show f.used + xs.length + (f.free - xs.length) = f.size
    omega
  · show contents (store f.buffer f.wptr xs) f.size f.rptr (f.used + xs.length) = _
    rw [hwptr] at hfit ⊢
    exact contents_store f.buffer hfit hused

/-- One round appends what one prepare grants, and wakes the consumer unless that is
nothing. -/
theorem prFifoWriteRound_eq (data : Mem UInt8) {st : WriteState τ} (h : Quiet st.fifo)
    {size k : Nat} (hk : writeGrant st.fifo (size - st.done) = k) :
    prFifoWriteRound data size st = (k,
      { fifo := put st.fifo (load data st.done k)
        done := st.done + k
        execs := if k = 0 then st.execs else st.execs ++ st.fifo.consumer.toList }) := by
  unfold prFifoWriteRound
  simp only [prFifoWritePrepare_eq h.wptr_ok, hk]
  split
  · next hpos => simp only [prFifoWriteDone, put, length_load, if_neg hpos]
  · next hzero =>
    rw [not_not] at hzero
    simp [hzero, put]

/-! ## 3. The loop -/

/-- A prepare grants nothing only if nothing is asked for or nothing is free. -/
theorem writeGrant_eq_zero {f : PrFifo τ} (h : Quiet f) {n : Nat} (hzero : writeGrant f n = 0) :
    min n f.free = 0 := by
  have htotal := h.total
  unfold writeGrant at hzero
  rcases h.wptr_ok with hlt | hsize
  · omega
  · omega

/-- The loop ends, having appended what is free of the bytes left to write. -/
theorem prFifoWriteLoop_returns (data : Mem UInt8) (size : Nat) (room : Nat) :
    ∀ st : WriteState τ, Quiet st.fifo → min (size - st.done) st.fifo.free = room →
      ∃ r, Returns (fun fuel => prFifoWriteLoop data size fuel st) r ∧
        r.done = st.done + room ∧ Wrote st.fifo (load data st.done room) r.fifo ∧
        ∀ t, t ∈ r.execs ↔ t ∈ st.execs ∨ st.fifo.consumer = some t ∧ 0 < room := by
  induction room using Nat.strongRecOn with
  | ind room ih =>
    intro st hquiet hroom
    obtain ⟨k, hk⟩ : ∃ k, writeGrant st.fifo (size - st.done) = k := ⟨_, rfl⟩
    have hround := prFifoWriteRound_eq data hquiet hk
    have hle : k ≤ room := by
      rw [← hk, ← hroom]
      exact Nat.min_le_left _ _
    have hfree : k ≤ st.fifo.free := hk ▸ writeGrant_le_free st.fifo _
    have hput : Wrote st.fifo (load data st.done k) (put st.fifo (load data st.done k)) := by
      refine wrote_put hquiet (by rwa [length_load]) ?_
      rw [length_load, ← hk]
      exact writeGrant_fits hquiet.wptr_le _
    rcases Nat.eq_zero_or_pos k with rfl | hpos
    · -- Nothing more fits.
      have hnone : room = 0 := by
        rw [← hroom]
        exact writeGrant_eq_zero hquiet hk
      refine ⟨⟨put st.fifo (load data st.done 0), st.done, st.execs⟩, ⟨1, ?_⟩, ?_, ?_, ?_⟩
      · show prFifoWriteLoop data size 1 st = _
        rw [prFifoWriteLoop, hround]
        rfl
      · rw [hnone]
        rfl
      · rw [hnone]
        exact hput
      · intro t
        simp [hnone]
    · -- The loop goes on with the bytes that are left.
      have hleft : min (size - (st.done + k)) (put st.fifo (load data st.done k)).free =
          room - k := by
        rw [hput.free hquiet, length_load, ← hroom, ← Nat.sub_sub]
        exact Nat.sub_min_sub_right ..
      obtain ⟨r, ⟨fuel, hr⟩, hdone, hwrote, hexecs⟩ :=
        ih (room - k) (Nat.sub_lt_of_pos_le hpos hle)
          ⟨put st.fifo (load data st.done k), st.done + k, st.execs ++ st.fifo.consumer.toList⟩
          hput.quiet hleft
      have hsplit : room = k + (room - k) := (Nat.add_sub_cancel' hle).symm
      refine ⟨r, ⟨fuel + 1, ?_⟩, ?_, ?_, fun t => ?_⟩
      · show prFifoWriteLoop data size (fuel + 1) st = _
        rw [prFifoWriteLoop, hround, if_neg (Nat.ne_of_gt hpos)]
        exact (if_pos (Nat.ne_of_gt hpos)).trans hr
      · rw [hdone, Nat.add_assoc, ← hsplit]
      · rw [hsplit, load_append]
        exact hput.trans hwrote
      · rw [hexecs, hput.consumer]
        have hroom : 0 < room := Nat.lt_of_lt_of_le hpos hle
        simp only [List.mem_append, Option.mem_toList, hroom, and_true]
        tauto

/-! ## 4. The copying calls are transfers -/

/-- A prepare, a copy and a done of the same size. -/
theorem put_reachable {size : Nat} {s : ZeroCopy.Sys τ} (h : (fifo τ size).Reachable s)
    (hp : s.producer = .closed) (hc : s.consumer = .closed) {n : Nat} {xs : List UInt8}
    (hlen : xs.length = writeGrant s.fifo n) :
    (fifo τ size).Reachable { s with fifo := put s.fifo xs, stored := s.stored ++ xs } := by
  obtain ⟨hquiet, -, -⟩ := reachable_quiet h hp hc
  have hexec : exec ZeroCopy.step s [.writePrepare n, .store xs, .writeDone] =
      some { s with fifo := put s.fifo xs, stored := s.stored ++ xs } := by
    simp only [exec, ZeroCopy.step, hp, prFifoWritePrepare_eq hquiet.wptr_ok, ← hlen,
      Option.bind_some, if_true, prFifoWriteDone_fst]
    rfl
  exact h.exec (fun _ a _ hstep => ⟨.transfer a, hstep⟩) hexec

theorem taken_reachable {size : Nat} {s : ZeroCopy.Sys τ} (h : (fifo τ size).Reachable s)
    (hp : s.producer = .closed) (hc : s.consumer = .closed) (n : Nat) :
    (fifo τ size).Reachable { s with
      fifo := taken s.fifo (readGrant s.fifo n)
      loaded := s.loaded ++ load s.fifo.buffer s.fifo.rptr (readGrant s.fifo n) } := by
  obtain ⟨hquiet, -, -⟩ := reachable_quiet h hp hc
  have hexec : exec ZeroCopy.step s [.readPrepare n, .load, .readDone] = some { s with
      fifo := taken s.fifo (readGrant s.fifo n)
      loaded := s.loaded ++ load s.fifo.buffer s.fifo.rptr (readGrant s.fifo n) } := by
    simp only [exec, ZeroCopy.step, hc, prFifoReadPrepare_eq hquiet.rptr_ok, Option.bind_some,
      prFifoReadDone_fst]
    rfl
  exact h.exec (fun _ a _ hstep => ⟨.transfer a, hstep⟩) hexec

/-- What the loop of a write leaves is reachable. -/
theorem writeLoop_reachable {size : Nat} (data : Mem UInt8) (n fuel : Nat) :
    ∀ (s : ZeroCopy.Sys τ) (st r : WriteState τ), (fifo τ size).Reachable s →
      s.producer = .closed → s.consumer = .closed → st.fifo = s.fifo →
      prFifoWriteLoop data n fuel st = .ok r →
      ∃ s', (fifo τ size).Reachable s' ∧ s'.producer = .closed ∧ s'.consumer = .closed ∧
        r.fifo = s'.fifo := by
  induction fuel with
  | zero => exact fun _ _ _ _ _ _ _ hr => by cases hr
  | succ fuel ih =>
    intro s st r h hp hc hst hr
    obtain ⟨hquiet, -, -⟩ := reachable_quiet h hp hc
    have hlen : (load data st.done (writeGrant s.fifo (n - st.done))).length =
        writeGrant s.fifo (n - st.done) := length_load ..
    have hput := put_reachable h hp hc hlen
    rw [prFifoWriteLoop, prFifoWriteRound_eq data (hst ▸ hquiet) rfl, hst] at hr
    simp only at hr
    split at hr
    · exact ih _ _ r hput hp hc rfl hr
    · cases hr
      exact ⟨_, hput, hp, hc, rfl⟩

/-- What the loop of a read leaves is reachable. -/
theorem readLoop_reachable {size : Nat} (transferred n fuel : Nat) :
    ∀ (s : ZeroCopy.Sys τ) (st r : ReadState τ), (fifo τ size).Reachable s →
      s.producer = .closed → s.consumer = .closed → st.fifo = s.fifo →
      prFifoReadLoop n transferred fuel st = .ok r →
      ∃ s', (fifo τ size).Reachable s' ∧ s'.producer = .closed ∧ s'.consumer = .closed ∧
        r.fifo = s'.fifo := by
  induction fuel with
  | zero => exact fun _ _ _ _ _ _ _ hr => by cases hr
  | succ fuel ih =>
    intro s st r h hp hc hst hr
    obtain ⟨hquiet, -, -⟩ := reachable_quiet h hp hc
    have htaken := taken_reachable h hp hc (n - st.done)
    have hsettled : Settled st.fifo := hst ▸ hquiet.toSettled
    obtain ⟨execs, hround⟩ := prFifoReadRound_eq hsettled n
    rw [prFifoReadLoop, hround, hst] at hr
    split at hr
    · exact ih _ _ r htaken hp hc rfl hr
    · cases hr
      exact ⟨_, htaken, hp, hc, rfl⟩

theorem copies_reachable {size : Nat} {s : ZeroCopy.Sys τ} (h : (fifo τ size).Reachable s)
    (hp : s.producer = .closed) (hc : s.consumer = .closed) (data : Mem UInt8) (n fuel : Nat) :
    (∀ r, prFifoWrite s.fifo data n fuel = .ok r → ∃ s', (fifo τ size).Reachable s' ∧
      s'.producer = .closed ∧ s'.consumer = .closed ∧ r.fifo = s'.fifo) ∧
    ∀ transferred r, prFifoRead transferred s.fifo data n fuel = .ok r →
      ∃ s', (fifo τ size).Reachable s' ∧ s'.producer = .closed ∧ s'.consumer = .closed ∧
        r.fifo = s'.fifo := by
  constructor
  · intro r hr
    unfold prFifoWrite at hr
    split at hr
    · cases hr
      exact ⟨s, h, hp, hc, rfl⟩
    · exact writeLoop_reachable data n fuel s _ r h hp hc rfl hr
  · intro transferred r hr
    unfold prFifoRead at hr
    split at hr
    · cases hr
      exact ⟨s, h, hp, hc, rfl⟩
    · exact readLoop_reachable transferred n fuel s _ r h hp hc rfl hr

/-! ## 5. Main result -/

/-- `pr_fifo_write f data n` ends, returns the smaller of `n` and the free bytes, appends
exactly these bytes of `data`, and passes the consumer to `pr_task_exec` exactly if there are
any. -/
def CompleteWrite (f : PrFifo τ) (data : Mem UInt8) (n : Nat) : Prop :=
  ∃ r, Returns (prFifoWrite f data n) r ∧
    r.done = min n (f.size - (queued f).length) ∧
    Wrote f (load data 0 r.done) r.fifo ∧
    ∀ t, t ∈ r.execs ↔ f.consumer = some t ∧ 0 < r.done

theorem completeWrite {f : PrFifo τ} (h : Quiet f) (data : Mem UInt8) (n : Nat) :
    CompleteWrite f data n := by
  have hfree : f.size - (queued f).length = f.free := by
    rw [length_queued, ← h.total, Nat.add_sub_cancel_left]
  unfold CompleteWrite
  rw [hfree]
  rcases Nat.eq_zero_or_pos n with rfl | hn
  · refine ⟨⟨f, 0, []⟩, ⟨0, rfl⟩, (Nat.zero_min _).symm, .refl h, fun t => ?_⟩
    simp
  · obtain ⟨r, ⟨fuel, hr⟩, hdone, hwrote, hexecs⟩ :=
      prFifoWriteLoop_returns data n (min n f.free) ⟨f, 0, []⟩ h rfl
    rw [Nat.zero_add] at hdone
    refine ⟨r, ⟨fuel, ?_⟩, hdone, ?_, fun t => ?_⟩
    · rw [prFifoWrite, if_neg (Nat.ne_of_gt hn)]
      exact hr
    · rw [hdone]
      exact hwrote
    · rw [hexecs, hdone]
      simp

/-- In every reachable FIFO without an open reservation, `pr_fifo_write` appends what fits,
`pr_fifo_peek` copies the oldest bytes, and the four questions are answered by the bytes that
have gone in and not out. -/
theorem fifo_copy_correct {size : Nat} {s : ZeroCopy.Sys τ} (h : (fifo τ size).Reachable s)
    (hp : s.producer = .closed) (hc : s.consumer = .closed) :
    s.stored = s.loaded ++ queued s.fifo ∧
    (∀ data n, CompleteWrite s.fifo data n) ∧
    (∀ data n, prFifoPeek s.fifo data n =
      (min n (queued s.fifo).length, store data 0 ((queued s.fifo).take n))) ∧
    prFifoAvailable s.fifo = (queued s.fifo).length ∧
    prFifoFree s.fifo = size - (queued s.fifo).length ∧
    (prFifoIsEmpty s.fifo = true ↔ queued s.fifo = []) ∧
    (prFifoIsFull s.fifo = true ↔ (queued s.fifo).length = size) := by
  obtain ⟨hquiet, hsize, hstored⟩ := reachable_quiet h hp hc
  have hlen := length_queued s.fifo
  have htotal := hquiet.total
  rw [hsize] at htotal
  refine ⟨hstored, completeWrite hquiet, fun data n => ?_, hlen.symm, ?_, ?_, ?_⟩
  · rw [prFifoPeek_eq hquiet.toSettled, hlen, ← hlen, ← List.take_eq_take_min]
  · rw [hlen, ← htotal, Nat.add_sub_cancel_left]
    rfl
  · rw [← List.length_eq_zero_iff, hlen]
    exact beq_iff_eq
  · rw [hlen, prFifoIsFull, beq_iff_eq, ← htotal]
    exact Nat.left_eq_add.symm

open ReadLemmas in
/-- A FIFO that holds `3, 4, 5` across the wrap has room for one of two more bytes. -/
theorem fifo_copy_correct_wrapped : ∃ s : ZeroCopy.Sys Unit, (fifo Unit 4).Reachable s ∧
    queued s.fifo = [3, 4, 5] ∧ CompleteWrite s.fifo (fun _ => 6) 2 ∧
    prFifoPeek s.fifo (fun _ => 0) 2 = (2, store (fun _ => 0) 0 [3, 4]) := by
  have hexec : exec ZeroCopy.step freshFour wrapActs = some _ := rfl
  have hstart : (fifo Unit 4).Reachable freshFour := .init ⟨fun _ => 0, none, none, rfl⟩
  have hreach := hstart.exec (fun _ a _ h => ⟨.transfer a, h⟩) hexec
  have hcopy := fifo_copy_correct hreach rfl rfl
  exact ⟨_, hreach, rfl, hcopy.2.1 _ 2, hcopy.2.2.1 _ 2⟩

end Picore.Fifo
