import Picore.Uart.Basic

/-!
# The enables of the interrupt

`on_uart_io` schedules the tasks and then disables both interrupts. The tasks enable them
again when they end. On the other core they can end before `on_uart_io` does.

Results:
1. `Armed`: what is waited for has its interrupt enabled, or a task is going to enable it.
   `Outlasted`: a task is still there when the interrupts are disabled.
2. `step_armed`: one step.
3. `interrupts_armed`: as long as the tasks outlast the handler, the interrupts are armed.
   `receiver_stuck`: both tasks have ended when the handler disables the interrupts.
-/

namespace Picore.Uart

open Transition
open Picore.Task (Status)

variable {φ : Type}

/-! ## 1. Armed interrupts -/

def Sys.TaskActive (s : Sys φ) : Prop := (∃ t, s.status t = .pending) ∨ s.run ≠ .idle

/-- A byte that is waited for, or room for one, raises the interrupt, or a task is going to
enable it. -/
structure Armed (s : Sys φ) : Prop where
  rx : s.uart.rxbufFree ≠ 0 → s.rxIrq = true ∨ s.TaskActive
  tx : s.uart.txbufBusy ≠ 0 → s.txIrq = true ∨ s.TaskActive

/-- When `on_uart_io` disables the interrupts, a port task is pending or running, or there
is nothing to wait for. -/
def Outlasted (s : Sys φ) : Act φ → Prop
  | .io _ => s.io = .disable → s.TaskActive ∨ s.uart.rxbufFree = 0 ∧ s.uart.txbufBusy = 0
  | _ => True

/-! ## 2. One step -/

theorem Armed.of_active {s : Sys φ} (h : s.TaskActive) : Armed s :=
  ⟨fun _ => .inr h, fun _ => .inr h⟩

/-- A change of anything else keeps the unit armed, if both interrupts and both flags stay and no
task has gone. -/
theorem Armed.frame {s t : Sys φ} (h : Armed s) (huart : t.uart = s.uart)
    (hrx : t.rxIrq = s.rxIrq) (htx : t.txIrq = s.txIrq) (hactive : s.TaskActive → t.TaskActive) :
    Armed t := by
  refine ⟨fun hfree => ?_, fun hbusy => ?_⟩
  · rw [hrx]
    exact (h.rx (huart ▸ hfree)).imp_right hactive
  · rw [htx]
    exact (h.tx (huart ▸ hbusy)).imp_right hactive

theorem exec_active (s : Sys φ) (t : PortTask) : (s.exec (some t)).TaskActive := by
  refine .inl ⟨t, ?_⟩
  show Function.update s.status t _ t = _
  rw [Function.update_self]
  rfl

theorem disable_armed (s : Sys φ) :
    Armed { s.setIrqEnables false false with io := .idle } ↔
      s.TaskActive ∨ s.uart.rxbufFree = 0 ∧ s.uart.txbufBusy = 0 := by
  constructor
  · intro h
    by_cases hactive : s.TaskActive
    · exact .inl hactive
    · refine .inr ⟨?_, ?_⟩
      · by_contra hfree
        exact (h.rx hfree).elim (fun h1 => by cases h1) hactive
      · by_contra hbusy
        exact (h.tx hbusy).elim (fun h1 => by cases h1) hactive
  · rintro (hactive | ⟨hfree, hbusy⟩)
    · exact .of_active hactive
    · exact ⟨fun h => absurd hfree h, fun h => absurd hbusy h⟩

theorem onUartIo_armed {s : Sys φ} (h : Armed s) (hw : Hw) (hok : Outlasted s (.io hw)) :
    Armed (onUartIo s hw) := by
  unfold onUartIo
  split
  · exact h
  · exact h.frame rfl rfl rfl id
  · exact h.frame rfl rfl rfl id
  · split
    · exact .of_active (exec_active s _)
    · exact h.frame rfl rfl rfl id
  · split
    · exact .of_active (exec_active s _)
    · exact h.frame rfl rfl rfl id
  · next hio => exact (disable_armed s).mpr (hok hio)

theorem leave_armed (s : Sys φ) : Armed s.leave :=
  ⟨fun h => .inl (bne_iff_ne.mpr h), fun h => .inl (bne_iff_ne.mpr h)⟩

variable [DecidableEq φ]

/-- A round of a loop does not end the handler. -/
theorem onFromPort_run {s : Sys φ} (h : s.run ≠ .idle) (hw : Hw) :
    (onFromPort s hw).run ≠ .idle := by
  unfold onFromPort
  split
  · exact nofun
  · split
    · split
      · exact nofun
      · next s' hwrite =>
        obtain ⟨ports, status, rfl⟩ := fifoWrite_frame hwrite
        exact h
    · split
      · exact nofun
      · exact h

theorem onToPort_run {s : Sys φ} (h : s.run ≠ .idle) (hw : Hw) : (onToPort s hw).run ≠ .idle := by
  unfold onToPort
  split
  · exact nofun
  · split
    · split
      · exact nofun
      · next b s' hread =>
        obtain ⟨ports, status, rfl⟩ := fifoRead_frame hread
        exact h
    · split
      · exact h
      · exact nofun

/-- Every step keeps the interrupts armed, if a task outlasts the handler. -/
theorem step_armed {s t : Sys φ} {a : Act φ} (h : Armed s) (hs : step s a = some t)
    (hok : Outlasted s a) : Armed t := by
  cases step_cases hs with
  | attach => exact ⟨fun _ => .inl rfl, fun _ => .inl rfl⟩
  | port | irq => exact h.frame rfl rfl rfl id
  | notify u => exact .of_active (exec_active s u)
  | run u => exact .of_active (.inr nofun)
  | fromPort hw hrun => exact .of_active (.inr (onFromPort_run (by rw [hrun]; exact nofun) hw))
  | toPort hw hrun => exact .of_active (.inr (onToPort_run (by rw [hrun]; exact nofun) hw))
  | leave => exact leave_armed s
  | io hw => exact onUartIo_armed h hw hok

/-! ## 3. Main result -/

/-- From a call of `pr_uart_attach` with both FIFOs on, whatever came before, the interrupts
are armed as long as a task outlasts each run of `on_uart_io`, unless there is nothing to wait
for. If none does, they are not. -/
theorem interrupts_armed (mem : PrUart φ) (s : Sys φ) (fromUart toUart : φ) {t : Sys φ}
    (h : (((uart mem).guard Outlasted).after
      (prUartAttach s (some fromUart) (some toUart))).Reachable t) :
    Armed t ∧ ∀ hw, t.io = .disable → (Armed (onUartIo t hw) ↔ Outlasted t (.io hw)) := by
  refine ⟨?_, fun hw hio => ?_⟩
  · refine h.invariant (I := Armed) ?_ ?_
    · rintro _ rfl
      exact ⟨fun _ => .inl rfl, fun _ => .inl rfl⟩
    · rintro s a t hs ⟨hstep, hok⟩
      exact step_armed hs hstep hok
  · unfold onUartIo
    rw [hio]
    exact (disable_armed t).trans ⟨fun h1 _ => h1, fun h1 => h1 hio⟩

namespace InterruptLemmas

def zeroed : PrUart Bool := ⟨none, none, 0, 0, 0, 0⟩

def started : Sys Bool := start zeroed fun _ => ⟨[], 8, none, none⟩

def attached : Sys Bool := prUartAttach started (some false) (some true)

/-- A byte has come. The interrupt schedules both tasks. -/
def schedules : List (Act Bool) :=
  .irq ⟨some 0x41, true⟩ :: List.replicate 4 (.io ⟨some 0x41, true⟩)

def bothRun : List (Act Bool) :=
  [.run .toPort, .round ⟨some 0x41, true⟩, .leave, .run .fromPort, .round ⟨some 0x41, true⟩,
    .round ⟨none, true⟩, .round ⟨none, true⟩, .leave]

def early (s : Sys Bool) (a : Act Bool) : Option (Sys Bool) :=
  if s.io = .disable then none else step s a

theorem early_outlasted (s : Sys Bool) (a : Act Bool) (t : Sys Bool) (h : early s a = some t) :
    ∃ a, (((uart zeroed).guard Outlasted).after attached).step s a t := by
  simp only [early] at h
  split at h
  · cases h
  · next hio =>
    refine ⟨a, h, ?_⟩
    cases a with
    | io hw => exact fun h1 => absurd h1 hio
    | attach | port | notify | run | round | leave | irq => exact trivial

end InterruptLemmas

open InterruptLemmas in
theorem interrupts_armed_attached : ∃ t,
    (((uart zeroed).guard Outlasted).after attached).Reachable t ∧ t.io = .idle ∧
    t.rxIrq = false ∧ t.status .fromPort = .pending ∧ Armed t := by
  have hexec : exec early attached schedules = some _ := rfl
  have hscheduled := Lts.Reachable.exec early_outlasted (.init rfl) hexec
  have hdisabled : (((uart zeroed).guard Outlasted).after attached).Reachable (onUartIo _ _) :=
    hscheduled.step (a := .io ⟨some 0x41, true⟩) ⟨rfl, fun _ => .inl (.inl ⟨.toPort, rfl⟩)⟩
  exact ⟨_, hdisabled, rfl, rfl, rfl, (interrupts_armed zeroed started false true hdisabled).1⟩

open InterruptLemmas in
/-- In this run both tasks end, and then the interrupt handler disables the interrupts for them. The
next byte of the line is in the hardware, and nothing is going to take it. -/
theorem receiver_stuck : ∃ t,
    ((uart zeroed).after attached).Reachable t ∧ t.io = .idle ∧ t.uart.rxbufFree = 1 ∧
    t.delivered = [0x41] ∧ ¬Armed t := by
  have hexec : exec step attached (schedules ++ bothRun ++ [.io ⟨none, true⟩]) = some _ := rfl
  have hreach : ((uart zeroed).after attached).Reachable _ :=
    Lts.Reachable.exec (fun _ a _ h => ⟨a, h⟩) (.init rfl) hexec
  refine ⟨_, hreach, rfl, rfl, rfl, fun harmed => ?_⟩
  rcases harmed.rx (by decide) with h | ⟨u, h⟩ | h
  · cases h
  · cases u with
    | toPort => cases h
    | fromPort => cases h
  · exact h rfl

end Picore.Uart
