import Picore.Cdc.Flow
import Picore.Fifo.Copy

/-!
# Copying into and out of a FIFO of the bridge

`pr_fifo_write` and `pr_fifo_read` of an application, while the handler holds nothing of the FIFO.

Results:
1. `readPrepare_takes`, `writePrepare_takes`: what the locked sections change.
2. `write_spec`: a write puts what there is room for.
3. `read_spec`: a read that returns has taken what there is up to the end of the buffer.
-/

namespace Picore.Cdc

open Memory Ring Fuel
open Picore.Fifo
open Picore.Fifo.ZeroCopy (Reservation)
open FlowLemmas

variable {ι : Type}

namespace CopiesLemmas

/-! ## 1. The locked sections -/

theorem readPrepare_takes (f : PrFifo ι) (n : Nat) : ∃ size rptr, size ≤ f.used ∧
    prFifoReadPrepare f n = (size, f.rptr, { f with used := f.used - size, rptr := rptr }) := by
  unfold prFifoReadPrepare
  lift_lets
  intro size rptr size' used next
  have hsize : size ≤ f.used := by
    unfold size
    split
    · exact Nat.le_refl _
    · exact Nat.le_of_not_lt ‹_›
  have hsize' : size' ≤ f.used := by
    unfold size'
    split
    · exact (Nat.le_of_lt ‹_›).trans hsize
    · exact hsize
  split
  · exact ⟨size', _, hsize', rfl⟩
  · next hzero =>
    rw [not_not] at hzero
    exact ⟨size', f.rptr, hsize', by rw [hzero]; rfl⟩

theorem writePrepare_takes (f : PrFifo ι) (n : Nat) : ∃ size free wptr,
    prFifoWritePrepare f n = (size, f.wptr, { f with free := free, wptr := wptr }) := by
  unfold prFifoWritePrepare
  lift_lets
  intro size wptr size' free next
  split
  · exact ⟨size', _, _, rfl⟩
  · exact ⟨size', f.free, f.wptr, rfl⟩

theorem readDone_eq (f : PrFifo ι) (k : Nat) :
    prFifoReadDone f k =
      ({ f with free := f.free + k }, if k ≠ 0 then f.producer else none) := by
  unfold prFifoReadDone
  split
  · next hk =>
    subst hk
    rfl
  · rfl

theorem writeDone_eq (f : PrFifo ι) (k : Nat) :
    prFifoWriteDone f k =
      ({ f with used := f.used + k }, if k ≠ 0 then f.consumer else none) := by
  unfold prFifoWriteDone
  split
  · next hk =>
    subst hk
    rfl
  · rfl

theorem carried_quiet {f : PrFifo ι} {stored loaded : List UInt8}
    (h : Carried f .closed .closed stored loaded) :
    Quiet f ∧ stored = loaded ++ queued f := by
  obtain ⟨size, hreach⟩ := h
  have hfifo : (fifo ι size).Reachable ⟨f, .closed, .closed, stored, loaded⟩ := by
    refine hreach.invariant (fun _ hs => .init hs) fun s a s' hs hstep => ?_
    exact hs.step (show fifoStep s (.transfer a) = some s' from hstep)
  obtain ⟨hquiet, -, hstored⟩ := reachable_quiet hfifo rfl rfl
  exact ⟨hquiet, hstored⟩

/-! ## 2. A write -/

theorem writeLoop_fueled (data : Mem UInt8) (size : Nat) (st : WriteState ι) :
    Fueled fun fuel => prFifoWriteLoop data size fuel st := by
  intro fuel
  induction fuel generalizing st with
  | zero => exact .timeout _
  | succ fuel ih =>
    unfold prFifoWriteLoop
    simp only
    split
    · exact ih _
    · exact .refl _

theorem write_fueled (f : PrFifo ι) (data : Mem UInt8) (size : Nat) :
    Fueled (prFifoWrite f data size) := by
  intro fuel
  unfold prFifoWrite
  split
  · exact .refl _
  · exact writeLoop_fueled data size _ fuel

theorem carried_round {data : Mem UInt8} {size : Nat} {st : WriteState ι}
    {base loaded : List UInt8} {consumer : Reservation}
    (h : Carried st.fifo .closed consumer (base ++ load data 0 st.done) loaded) :
    Carried (prFifoWriteRound data size st).2.fifo .closed consumer
      (base ++ load data 0 (prFifoWriteRound data size st).2.done) loaded := by
  have hprepared := carried_writePrepare h (size - st.done)
  unfold prFifoWriteRound
  generalize prFifoWritePrepare st.fifo (size - st.done) = r at hprepared ⊢
  obtain ⟨transferred, dst, fifo⟩ := r
  have hload : load data 0 (st.done + transferred) =
      load data 0 st.done ++ load data st.done transferred := by
    rw [load_append, Nat.zero_add]
  have hdone := carried_writeDone hprepared (length_load data st.done transferred)
  rw [List.append_assoc, ← hload] at hdone
  simp only at hdone ⊢
  split
  · exact hdone
  · next hzero =>
    rw [not_not] at hzero
    subst hzero
    rw [load_zero, store_nil, writeDone_eq] at hdone
    exact hdone

theorem carried_writeLoop {data : Mem UInt8} {size fuel : Nat} {st r : WriteState ι}
    {base loaded : List UInt8} {consumer : Reservation}
    (h : Carried st.fifo .closed consumer (base ++ load data 0 st.done) loaded)
    (hr : prFifoWriteLoop data size fuel st = .ok r) :
    Carried r.fifo .closed consumer (base ++ load data 0 r.done) loaded := by
  induction fuel generalizing st with
  | zero => cases hr
  | succ fuel ih =>
    rw [prFifoWriteLoop] at hr
    simp only at hr
    split at hr
    · exact ih (carried_round h) hr
    · cases hr
      exact carried_round h

theorem write_spec {f : PrFifo ι} {stored loaded : List UInt8}
    (h : Carried f .closed .closed stored loaded) {data : Mem UInt8} {size fuel : Nat}
    {w : WriteState ι} (hw : prFifoWrite f data size fuel = .ok w) :
    Carried w.fifo .closed .closed (stored ++ load data 0 w.done) loaded ∧
      w.done = min size f.free ∧ w.fifo.free = f.free - w.done ∧
      w.fifo.used = f.used + w.done ∧ w.fifo.producer = f.producer ∧
      w.fifo.consumer = f.consumer ∧ ∀ t ∈ w.execs, f.consumer = some t := by
  obtain ⟨hquiet, -⟩ := carried_quiet h
  obtain ⟨r, hret, hdone, hwrote, hexecs⟩ := completeWrite hquiet data size
  obtain rfl := (write_fueled f data size).returns_unique hret ⟨fuel, hw⟩
  have hfree : f.size - (queued f).length = f.free := by
    rw [length_queued, ← hquiet.total, Nat.add_sub_cancel_left]
  have hused : r.fifo.used = f.used + r.done := by
    rw [← length_queued, hwrote.queued, List.length_append, length_queued, length_load]
  have hleft := hwrote.free hquiet
  rw [length_load] at hleft
  refine ⟨?_, hfree ▸ hdone, hleft, hused, hwrote.producer, hwrote.consumer,
    fun t ht => ((hexecs t).mp ht).1⟩
  unfold prFifoWrite at hw
  split at hw
  · cases hw
    rw [load_zero, List.append_nil]
    exact h
  · have hstart : Carried (WriteState.mk f 0 []).fifo .closed .closed
        (stored ++ load data 0 (WriteState.mk f 0 []).done) loaded := by
      rw [load_zero, List.append_nil]
      exact h
    exact carried_writeLoop hstart hw

/-! ## 3. A read -/

theorem read_round {transferred size fuel : Nat} {f : PrFifo ι} {data : Mem UInt8}
    {r : ReadState ι} (hsize : size ≠ 0) (hr : prFifoRead transferred f data size fuel = .ok r) :
    r = prFifoReadRound size ⟨f, data, 0, []⟩ := by
  rw [prFifoRead, if_neg hsize] at hr
  by_cases ht : transferred = 0
  · subst ht
    cases fuel with
    | zero => cases hr
    | succ fuel =>
      rw [prFifoReadLoop_zero] at hr
      exact (Except.ok.inj hr).symm
  · rw [prFifoReadLoop_timeout ht] at hr
    cases hr

theorem readRound_execs {size : Nat} {st : ReadState ι} {t : ι}
    (ht : t ∈ (prFifoReadRound size st).execs) : t ∈ st.execs ∨ st.fifo.producer = some t := by
  obtain ⟨k, rptr, -, hprepare⟩ := readPrepare_takes st.fifo (size - st.done)
  unfold prFifoReadRound at ht
  simp only [hprepare, readDone_eq] at ht
  split at ht
  · exact (List.mem_append.mp ht).imp_right Option.mem_toList.mp
  · exact .inl ht

/-- What a read leaves. It stops where the FIFO wraps. -/
theorem read_spec {f : PrFifo ι} {stored loaded : List UInt8}
    (h : Carried f .closed .closed stored loaded) {data : Mem UInt8}
    {transferred size fuel : Nat} {r : ReadState ι}
    (hr : prFifoRead transferred f data size fuel = .ok r) :
    r.done = min (min size f.used) (f.size - f.rptr) ∧
      load r.data 0 r.done = (queued f).take r.done ∧
      Carried r.fifo .closed .closed stored (loaded ++ load r.data 0 r.done) ∧
      r.fifo.producer = f.producer ∧ r.fifo.consumer = f.consumer ∧
      ∀ t ∈ r.execs, f.producer = some t := by
  obtain ⟨hquiet, -⟩ := carried_quiet h
  by_cases hsize : size = 0
  · rw [prFifoRead, if_pos hsize] at hr
    cases hr
    rw [load_zero, List.append_nil, hsize, Nat.zero_min, Nat.zero_min, List.take_zero]
    exact ⟨rfl, rfl, h, rfl, rfl, fun t ht => absurd ht List.not_mem_nil⟩
  obtain rfl := read_round hsize hr
  have hload : load f.buffer f.rptr (readGrant f size) = (queued f).take (readGrant f size) := by
    rw [queued, Ring.contents_take _ (readGrant_le_used f size),
      Ring.load_eq_contents f.buffer (readGrant_fits hquiet.rptr_le size)]
  have hdone := carried_readDone (carried_readPrepare h size)
  rw [prFifoReadPrepare_eq hquiet.rptr_ok, readDone_eq] at hdone
  have hexecs := fun t (ht : t ∈ (prFifoReadRound size ⟨f, data, 0, []⟩).execs) =>
    (readRound_execs ht).resolve_left List.not_mem_nil
  have hsettled : Settled (ReadState.mk f data 0 []).fifo := hquiet.toSettled
  obtain ⟨execs, hround⟩ := prFifoReadRound_eq hsettled size
  rw [hround] at hexecs ⊢
  simp only [Nat.sub_zero, Nat.zero_add] at hexecs ⊢
  have hself : load (store data 0 (load f.buffer f.rptr (readGrant f size))) 0 (readGrant f size) =
      load f.buffer f.rptr (readGrant f size) := by
    have hstore := load_store_self data 0 (load f.buffer f.rptr (readGrant f size))
    rw [length_load] at hstore
    exact hstore
  rw [hself]
  exact ⟨rfl, hload, hdone, rfl, rfl, hexecs⟩

end CopiesLemmas

end Picore.Cdc
