import Picore.Uart.Basic

/-!
# The bytes of both directions

Each direction holds one byte between the FIFO and the hardware, and a flag tells whether it
does. `pr_uart_init` sets the flag of the receiver, but not that of the transmitter.

Results:
1. `Intact`: no byte is invented, lost or repeated.
2. `Inv`, `step_inv`: the byte between the FIFO and the hardware, over one step.
3. `streams_intact_iff`: the streams are intact in every run exactly if `txbuf_busy` is 0 in
   the memory that `pr_uart_init` gets. `stale_byte_sent`: a byte that nobody has written.
-/

namespace Picore.Uart

open Transition
open Picore.Task (Status)

variable {φ : Type}

/-! ## 1. Streams -/

/-- What is sent is what was taken from the FIFOs, up to one byte that is still held. What
was received is what was put into the FIFOs, up to the byte in `rxbuf`. -/
structure Intact (s : Sys φ) : Prop where
  sent : s.put <+: s.taken
  held : s.taken.length ≤ s.put.length + 1
  received : s.got = s.delivered ∨ s.uart.rxbufFree = 0 ∧ s.got = s.delivered ++ [s.uart.rxbuf]

/-- The byte that has been taken from `to_port` and not been sent yet, if there is one. -/
def PrUart.sending (u : PrUart φ) : List UInt8 := if u.txbufBusy = 0 then [] else [u.txbuf]

/-- The byte that has been received and not been put into `from_port` yet, if there is one. -/
def PrUart.receiving (u : PrUart φ) : List UInt8 := if u.rxbufFree = 0 then [u.rxbuf] else []

/-! ## 2. One step -/

/-- The bytes held are all that is under way: between the FIFO and the hardware on one side, and
between the hardware and the FIFO on the other. -/
structure Inv (s : Sys φ) : Prop where
  taken : s.taken = s.put ++ s.uart.sending
  got : s.got = s.delivered ++ s.uart.receiving

theorem Inv.intact {s : Sys φ} (h : Inv s) : Intact s := by
  refine ⟨⟨_, h.taken.symm⟩, ?_, ?_⟩
  · rw [h.taken, List.length_append]
    refine Nat.add_le_add_left ?_ _
    unfold PrUart.sending
    split
    · exact Nat.zero_le 1
    · exact Nat.le_refl 1
  · have hgot := h.got
    unfold PrUart.receiving at hgot
    split at hgot
    · next hfree => exact .inr ⟨hfree, hgot⟩
    · exact .inl (hgot.trans (List.append_nil _))

theorem start_inv {mem : PrUart φ} (h : mem.txbufBusy = 0) (ports : φ → Port) :
    Inv (start mem ports) := by
  refine ⟨?_, rfl⟩
  show [] = [] ++ (prUartInit mem).sending
  rw [PrUart.sending, show (prUartInit mem).txbufBusy = 0 from h, if_pos rfl]
  rfl

/-- `pr_task_exec` changes statuses only, so the bytes under way stay the same. -/
theorem Inv.exec {s : Sys φ} (h : Inv s) (task : Option PortTask) : Inv (s.exec task) := by
  obtain ⟨status, heq, -⟩ := exec_frame s task
  rw [heq]
  exact ⟨h.taken, h.got⟩

theorem onUartIo_inv {s : Sys φ} (h : Inv s) (hw : Hw) : Inv (onUartIo s hw) := by
  unfold onUartIo
  split
  · exact h
  · exact ⟨h.taken, h.got⟩
  · exact ⟨h.taken, h.got⟩
  · split
    · exact ⟨h.taken, h.got⟩
    · exact ⟨h.taken, h.got⟩
  · split
    · exact ⟨h.taken, h.got⟩
    · exact ⟨h.taken, h.got⟩
  · exact ⟨h.taken, h.got⟩

variable [DecidableEq φ]

theorem onFromPort_inv {s : Sys φ} (h : Inv s) (hw : Hw) : Inv (onFromPort s hw) := by
  obtain ⟨htaken, hgot⟩ := h
  unfold PrUart.receiving at hgot
  unfold onFromPort
  split
  · exact ⟨htaken, hgot⟩
  · split
    · next hfree =>
      rw [if_pos hfree] at hgot
      split
      · exact ⟨htaken, by rw [hgot, PrUart.receiving, if_pos hfree]⟩
      · -- The byte in `rxbuf` is delivered.
        next s' hwrite =>
        obtain ⟨ports, status, rfl⟩ := fifoWrite_frame hwrite
        exact ⟨htaken, hgot.trans (List.append_nil _).symm⟩
    · next hfree =>
      rw [if_neg hfree, List.append_nil] at hgot
      split
      · exact ⟨htaken, by rw [hgot, PrUart.receiving, if_neg hfree, List.append_nil]⟩
      · next c hread => exact ⟨htaken, congrArg (· ++ [c]) hgot⟩

theorem onToPort_inv {s : Sys φ} (h : Inv s) (hw : Hw) : Inv (onToPort s hw) := by
  obtain ⟨htaken, hgot⟩ := h
  unfold PrUart.sending at htaken
  unfold onToPort
  split
  · exact ⟨htaken, hgot⟩
  · split
    · next hbusy =>
      rw [if_pos hbusy, List.append_nil] at htaken
      split
      · exact ⟨by rw [htaken, PrUart.sending, if_pos hbusy, List.append_nil], hgot⟩
      · next b s' hread =>
        obtain ⟨ports, status, rfl⟩ := fifoRead_frame hread
        exact ⟨congrArg (· ++ [b]) htaken, hgot⟩
    · next hbusy =>
      rw [if_neg hbusy] at htaken
      split
      · -- The byte in `txbuf` goes out.
        exact ⟨htaken.trans (List.append_nil _).symm, hgot⟩
      · exact ⟨by rw [htaken, PrUart.sending, if_neg hbusy], hgot⟩

theorem step_inv {s t : Sys φ} {a : Act φ} (h : Inv s) (hs : step s a = some t) : Inv t := by
  cases step_cases hs with
  | attach | port | run | leave | irq => exact ⟨h.taken, h.got⟩
  | notify u => exact h.exec _
  | fromPort hw => exact onFromPort_inv h hw
  | toPort hw => exact onToPort_inv h hw
  | io hw => exact onUartIo_inv h hw

/-! ## 3. Main result -/

omit [DecidableEq φ] in
theorem not_intact_of_put {s : Sys φ} {b : UInt8} (htaken : s.taken = []) (hput : s.put = [b]) :
    ¬Intact s := by
  intro hintact
  have hsent := hintact.sent
  rw [htaken, hput, List.prefix_nil] at hsent
  cases hsent

/-- A byte that `txbuf` seems to hold goes out once the hardware takes it. -/
theorem onToPort_writable {s : Sys φ} {f : φ} (hport : s.uart.toPort = some f)
    (hbusy : s.uart.txbufBusy ≠ 0) :
    onToPort s ⟨none, true⟩ =
      { s with uart := { s.uart with txbufBusy := 0 }, put := s.put ++ [s.uart.txbuf] } := by
  unfold onToPort
  rw [hport]
  exact if_neg hbusy

/-- If `txbuf_busy` is not 0 at the start, what is in `txbuf` is sent. -/
theorem reachable_stale (f : φ) {mem : PrUart φ} (h : mem.txbufBusy ≠ 0) :
    ∃ s, (uart mem).Reachable s ∧ s.taken = [] ∧ s.put = [mem.txbuf] := by
  have hstart : (uart mem).Reachable (start mem fun _ => ⟨[], 0, none, none⟩) := .init ⟨_, rfl⟩
  have hexec : exec step (start mem fun _ => ⟨[], 0, none, none⟩)
      [.attach none (some f), .notify .toPort, .run .toPort] = some _ := rfl
  have hround : (uart mem).Reachable (onToPort _ ⟨none, true⟩) :=
    (Lts.reachable_exec hstart hexec).step (a := .round ⟨none, true⟩) rfl
  refine ⟨_, hround, ?_, ?_⟩
  · rw [onToPort_writable rfl h]
    rfl
  · rw [onToPort_writable rfl h]
    rfl

/-- No byte is invented, lost or repeated, for every content of the memory in which `txbuf_busy` is
0, and for no other one. `pr_uart_init` does not set this flag. The FIFO `f` is there to be attached
in the run that fails. -/
theorem streams_intact_iff (f : φ) (mem : PrUart φ) :
    (∀ s, (uart mem).Reachable s → Intact s) ↔ mem.txbufBusy = 0 := by
  constructor
  · intro hintact
    by_contra hbusy
    obtain ⟨s, hs, htaken, hput⟩ := reachable_stale f hbusy
    exact not_intact_of_put htaken hput (hintact s hs)
  · intro hbusy s hs
    have hinv : Inv s := by
      refine hs.invariant (I := Inv) ?_ fun _ _ _ h1 hstep => step_inv h1 hstep
      rintro s ⟨ports, rfl⟩
      exact start_inv hbusy ports
    exact hinv.intact

namespace StreamLemmas

def used : PrUart Unit where
  toPort := none
  fromPort := none
  rxbuf := 0
  txbuf := 0x55
  rxbufFree := 0
  txbufBusy := 1

end StreamLemmas

open StreamLemmas in
/-- The byte 0x55 was in the memory of the driver before `pr_uart_init`. It goes out, although no
FIFO ever held a byte. -/
theorem stale_byte_sent :
    ∃ s, (uart used).Reachable s ∧ s.taken = [] ∧ s.put = [0x55] ∧ ¬Intact s := by
  have hbusy : used.txbufBusy ≠ 0 := by decide
  obtain ⟨s, hs, htaken, hput⟩ := reachable_stale () hbusy
  exact ⟨s, hs, htaken, hput, not_intact_of_put htaken hput⟩

end Picore.Uart
