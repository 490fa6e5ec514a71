import Picore.Fifo.Copy

/-!
# Partial completion

The header lets `pr_fifo_read_done` and `pr_fifo_write_done` have fewer bytes than their
prepare has returned. But prepare has moved the pointer and the counter of its own side
already, and done only gives the bytes that it is told of to the other side. The others are
in neither counter.

Results:
1. `ConsumesOldest`, `AppendsFirst`: what a completion with `m` bytes should do.
2. `quiet_taken`: a complete read.
3. `partial_done_iff`: they do it exactly if `m` is what prepare has returned.
   `rest_lost`: two bytes that are lost, and the room of them.
-/

namespace Picore.Fifo

open Memory Ring Fuel Transition

variable {τ : Type}

/-! ## 1. Laws -/

/-- `f` after `pr_fifo_read_prepare(n)` and `pr_fifo_read_done(m)`. -/
def readPartly (f : PrFifo τ) (n m : Nat) : PrFifo τ :=
  (prFifoReadDone (prFifoReadPrepare f n).2.2 m).1

/-- `f` after `pr_fifo_write_prepare(n)`, a copy of `xs` to what it returned, and
`pr_fifo_write_done(m)`. -/
def writePartly (f : PrFifo τ) (n : Nat) (xs : List UInt8) (m : Nat) : PrFifo τ :=
  let (_, dst, f) := prFifoWritePrepare f n
  (prFifoWriteDone { f with buffer := store f.buffer dst xs } m).1

/-- The `m` oldest bytes are gone, and nothing else has changed: the counters add up to
`size`, and the next bytes are written behind the last one. -/
def ConsumesOldest (f : PrFifo τ) (n m : Nat) : Prop :=
  Quiet (readPartly f n m) ∧ queued (readPartly f n m) = (queued f).drop m

/-- The first `m` of the bytes are written behind the others. -/
def AppendsFirst (f : PrFifo τ) (n : Nat) (xs : List UInt8) (m : Nat) : Prop :=
  Wrote f (xs.take m) (writePartly f n xs m)

/-! ## 2. What the calls do -/

theorem readPartly_eq {f : PrFifo τ} (h : Quiet f) (n m : Nat) :
    readPartly f n m = { taken f (readGrant f n) with free := f.free + m } := by
  rw [readPartly, prFifoReadPrepare_eq h.rptr_ok, prFifoReadDone_fst]
  rfl

theorem writePartly_eq {f : PrFifo τ} (h : Quiet f) {n m : Nat} {xs : List UInt8}
    (hlen : xs.length = writeGrant f n) :
    writePartly f n xs m = { put f xs with used := f.used + m } := by
  unfold writePartly
  rw [prFifoWritePrepare_eq h.wptr_ok, ← hlen]
  simp only [prFifoWriteDone_fst]
  rfl

theorem quiet_taken {f : PrFifo τ} (h : Quiet f) {k : Nat} (hk : k ≤ f.used)
    (hfit : f.rptr + k ≤ f.size) : Quiet (taken f k) := by
  have hrptr := taken_rptr h.toSettled hfit
  have htotal := h.total
  refine ⟨⟨?_, ?_, ?_⟩, ?_, ?_⟩
  · rw [hrptr]
    exact mod_lt_or_zero _ _
  · rw [hrptr]
    exact mod_le_of_zero fun hsize => Nat.le_zero.mp (hsize ▸ hfit)
  · exact Nat.le_trans (Nat.sub_le _ _) h.used_le
  · rw [hrptr]
    show f.wptr = ((f.rptr + k) % f.size + (f.used - k)) % f.size
    rw [Nat.mod_add_mod, Nat.add_assoc, Nat.add_sub_cancel' hk, h.wptr]
  · show f.used - k + (f.free + k) = f.size
    omega

/-! ## 3. Main result -/

theorem consumesOldest_iff {f : PrFifo τ} (h : Quiet f) (n m : Nat) :
    ConsumesOldest f n m ↔ m = readGrant f n := by
  have hle := readGrant_le_used f n
  have htotal := h.total
  constructor
  · rintro ⟨hquiet, -⟩
    have htotal' := hquiet.total
    rw [readPartly_eq h] at htotal'
    have htotal' : f.used - readGrant f n + (f.free + m) = f.size := htotal'
    omega
  · rintro rfl
    unfold ConsumesOldest
    rw [readPartly_eq h]
    have hfit := readGrant_fits h.rptr_le n
    exact ⟨quiet_taken h hle hfit, queued_taken h.toSettled hle hfit⟩

theorem appendsFirst_iff {f : PrFifo τ} (h : Quiet f) {n m : Nat} {xs : List UInt8}
    (hlen : xs.length = writeGrant f n) : AppendsFirst f n xs m ↔ m = writeGrant f n := by
  have hle := writeGrant_le_free f n
  have htotal := h.total
  constructor
  · intro hwrote
    have htotal' := hwrote.quiet.total
    rw [writePartly_eq h hlen] at htotal'
    have htotal' : f.used + m + (f.free - xs.length) = f.size := htotal'
    omega
  · rintro rfl
    unfold AppendsFirst
    rw [writePartly_eq h hlen, ← hlen, List.take_length]
    refine wrote_put h (hlen ▸ hle) ?_
    rw [hlen]
    exact writeGrant_fits h.wptr_le n

/-- In every reachable FIFO without an open reservation, and for every request, a completion
with up to as many bytes as prepare has returned does what it should exactly if it is with all
of them. -/
theorem partial_done_iff {size : Nat} {s : ZeroCopy.Sys τ} (h : (fifo τ size).Reachable s)
    (hp : s.producer = .closed) (hc : s.consumer = .closed) :
    (∀ n m, m ≤ (prFifoReadPrepare s.fifo n).1 →
      (ConsumesOldest s.fifo n m ↔ m = (prFifoReadPrepare s.fifo n).1)) ∧
    ∀ n m (xs : List UInt8), xs.length = (prFifoWritePrepare s.fifo n).1 → m ≤ xs.length →
      (AppendsFirst s.fifo n xs m ↔ m = (prFifoWritePrepare s.fifo n).1) := by
  obtain ⟨hquiet, -, -⟩ := reachable_quiet h hp hc
  refine ⟨fun n m _ => ?_, fun n m xs hlen _ => ?_⟩
  · rw [prFifoReadPrepare_eq hquiet.rptr_ok]
    exact consumesOldest_iff hquiet n m
  · rw [prFifoWritePrepare_eq hquiet.wptr_ok] at hlen ⊢
    exact appendsFirst_iff hquiet hlen

namespace PartialLemmas

open ReadLemmas

def threeActs : List ZeroCopy.Act := [.writePrepare 3, .store [1, 2, 3], .writeDone]

/-- A FIFO of four bytes with three bytes in it. -/
def three : ZeroCopy.Sys Unit := (exec ZeroCopy.step freshFour threeActs).getD freshFour

theorem reachable_three : (fifo Unit 4).Reachable three := by
  have hexec : exec ZeroCopy.step freshFour threeActs = some three := rfl
  have hstart : (fifo Unit 4).Reachable freshFour := .init ⟨fun _ => 0, none, none, rfl⟩
  exact hstart.exec (fun _ a _ h => ⟨.transfer a, h⟩) hexec

end PartialLemmas

open PartialLemmas in
theorem partial_done_iff_three :
    (ConsumesOldest three.fifo 2 2 ↔ 2 = (prFifoReadPrepare three.fifo 2).1) ∧
    (AppendsFirst three.fifo 2 [4] 0 ↔ 0 = (prFifoWritePrepare three.fifo 2).1) := by
  have hthree := partial_done_iff reachable_three rfl rfl
  exact ⟨hthree.1 2 2 (by decide), hthree.2 2 0 [4] rfl (by decide)⟩

open PartialLemmas in
/-- `pr_fifo_read_prepare` returns 3 bytes and `pr_fifo_read_done` is told of one. The other two
are gone, and there is no room for them any more. -/
theorem rest_lost :
    (fifo Unit 4).Reachable three ∧ queued three.fifo = [1, 2, 3] ∧
    (prFifoReadPrepare three.fifo 3).1 = 3 ∧ queued (readPartly three.fifo 3 1) = [] ∧
    (readPartly three.fifo 3 1).used + (readPartly three.fifo 3 1).free = 2 ∧
    ¬ConsumesOldest three.fifo 3 1 := by
  refine ⟨reachable_three, rfl, rfl, rfl, rfl, fun h => ?_⟩
  have hqueued := h.2
  cases hqueued

end Picore.Fifo
